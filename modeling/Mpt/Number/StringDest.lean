import Mpt.Number.Valfmt

/-! # Destinations in a text

`mpt_string_dest` reads numbers with separators between them.  Errors are told by the position, so
that one at the very start of the text is none.
-/

namespace Mpt.Number

/-- The values and the result of the loop of `mpt_string_dest`, with `n` values to go. -/
def destLoop (sep : Char) : (n pos : Nat) → (descr : List Char) → (vals : List (Option Nat)) →
    List (Option Nat) × Int
  | 0, pos, _, vals => (vals, pos)
  | n + 1, pos, descr, vals =>
      match scan 0 descr with
      | none =>
          match descr with
          | [] => (vals, pos)
          | c :: rest =>
              if c = sep then
                if rest.head?.any isspace then (vals, pos + 1)
                else destLoop sep n (pos + 1) rest (vals ++ [none])
              else (vals, -pos)
      | some f =>
          if f.signed < 0 ∨ 255 < f.signed then (vals, -(pos + f.extent))
          else
            match descr.drop f.extent with
            | [] => (vals ++ [some f.signed.toNat], pos + f.extent)
            | c :: rest =>
                if isspace c ∨ c ≠ sep then (vals ++ [some f.signed.toNat], pos + f.extent)
                else destLoop sep n (pos + f.extent + 1) rest (vals ++ [some f.signed.toNat])

/-- The bits of the values that were read: `change` -/
def changes : List (Option Nat) → Nat
  | [] => 0
  | v :: l => (if v.isSome then 1 else 0) + 2 * changes l

/-- `mpt_string_dest`: what is changed limits the number of values for the next call. -/
def stringDest (change : Nat) (sep : Char) (descr : Option (List Char)) : List (Option Nat) × Int :=
  let max := if change = 0 then 7 else change
  if 7 < max then ([], -1)
  else
    match descr with
    | none => ([], 0)
    | some descr =>
        destLoop sep max (descr.takeWhile isspace).length (descr.dropWhile isspace) []

/-- A field that is to be read is no number or not in range. -/
def Unreadable (sep : Char) : (n : Nat) → List Char → Prop
  | 0, _ => False
  | n + 1, l =>
      match scan 0 l with
      | none =>
          match l with
          | [] => False
          | c :: rest => if c = sep then rest.head?.any isspace = false ∧ Unreadable sep n rest else True
      | some f =>
          (f.value < 0 ∨ 255 < f.value) ∨
            match l.drop f.extent with
            | [] => False
            | c :: rest => isspace c = false ∧ c = sep ∧ Unreadable sep n rest

/-- There is no number where the text starts, and no separator. -/
def NoField (sep : Char) (l : List Char) : Prop := scan 0 l = none ∧ ∃ c rest, l = c :: rest ∧ c ≠ sep

theorem signed_outside (f : Found) : (f.signed < 0 ∨ 255 < f.signed) ↔ f.value < 0 ∨ 255 < f.value := by
  unfold Found.signed int64Min int64Max
  split
  · omega
  · split <;> omega

theorem scanSign_length (l : List Char) : (scanSign l).2.length ≤ l.length := by
  unfold scanSign
  split
  · exact Nat.le_succ _
  · exact Nat.le_succ _
  · exact Nat.le_refl _

/-- An integer does not end behind the text. -/
theorem scan_extent_le {l : List Char} {f : Found} (found : scan 0 l = some f) :
    f.extent ≤ l.length := by
  unfold scan at found
  rw [if_neg (by omega)] at found
  simp only at found
  split at found
  · cases found
  · have base := scanBase_length 0 (scanSign (l.dropWhile isspace)).2
    have sign := scanSign_length (l.dropWhile isspace)
    have blank := List.length_dropWhile_le isspace l
    have digits := (List.takeWhile_prefix
      (isDigit (scanBase 0 (scanSign (l.dropWhile isspace)).2).1)
      (l := (scanBase 0 (scanSign (l.dropWhile isspace)).2).2)).length_le
    rw [← Option.some.inj found]
    simp only
    omega

theorem destLoop_sep {c : Char} {rest : List Char} (found : scan 0 (c :: rest) = none) (n pos : Nat)
    (vals : List (Option Nat)) :
    destLoop c (n + 1) pos (c :: rest) vals =
      if rest.head?.any isspace then (vals, (pos + 1 : Int))
      else destLoop c n (pos + 1) rest (vals ++ [none]) := by
  rw [destLoop.eq_def]
  simp only [found, if_true]

theorem unreadable_sep {c : Char} {rest : List Char} (found : scan 0 (c :: rest) = none) (n : Nat) :
    Unreadable c (n + 1) (c :: rest) ↔ rest.head?.any isspace = false ∧ Unreadable c n rest := by
  rw [Unreadable.eq_def]
  simp only [found, if_true]

theorem destLoop_found {sep : Char} {n pos v : Nat} {l : List Char} {vals : List (Option Nat)} {f : Found}
    (found : scan 0 l = some f) (value : f.signed = v) (small : v ≤ 255) :
    destLoop sep (n + 1) pos l vals =
      match l.drop f.extent with
      | [] => (vals ++ [some v], (pos + f.extent : Int))
      | c :: rest =>
          if isspace c ∨ c ≠ sep then (vals ++ [some v], (pos + f.extent : Int))
          else destLoop sep n (pos + f.extent + 1) rest (vals ++ [some v]) := by
  rw [destLoop.eq_def]
  simp only [found]
  rw [if_neg (by omega), value]
  rfl

/-- What is read is consumed; an error has the position in front of it. -/
def Told (sep : Char) (n pos : Nat) (l : List Char) (ret : Int) : Prop :=
  (¬ Unreadable sep n l → ∃ k, k ≤ l.length ∧ ret = pos + k ∧ (k = 0 → n = 0 ∨ l = [])) ∧
  (Unreadable sep n l → ∃ k, ret = -(pos + k : Nat) ∧ (k = 0 ↔ NoField sep l))

theorem Told.consumed {sep : Char} {n : Nat} {l : List Char} (fine : ¬ Unreadable sep n l) (pos : Nat)
    {k : Nat} (le : k ≤ l.length) (zero : k = 0 → n = 0 ∨ l = []) : Told sep n pos l (pos + k) :=
  ⟨fun _ => ⟨k, le, rfl, zero⟩, fun bad => absurd bad fine⟩

theorem Told.refused {sep : Char} {n : Nat} {l : List Char} (bad : Unreadable sep n l) (pos : Nat)
    {k : Nat} (zero : k = 0 ↔ NoField sep l) : Told sep n pos l (-(pos + k)) :=
  ⟨fun fine => absurd bad fine, fun _ => ⟨k, congrArg Neg.neg (Int.natCast_add _ _).symm, zero⟩⟩

/-- A field in front of what is left, by its length `k` -/
theorem Told.behind {sep : Char} {n pos k : Nat} {l rest : List Char} {ret : Int}
    (told : Told sep n (pos + k) rest ret) (le : k + rest.length ≤ l.length) (some_ : 0 < k)
    (field : ¬ NoField sep l) (same : Unreadable sep (n + 1) l ↔ Unreadable sep n rest) :
    Told sep (n + 1) pos l ret := by
  constructor
  · intro fine
    obtain ⟨k', le', eq, -⟩ := told.1 fun bad => fine (same.mpr bad)
    exact ⟨k + k', by omega, by rw [eq]; omega, fun none => absurd none (by omega)⟩
  · intro wrong
    obtain ⟨k', eq, -⟩ := told.2 (same.mp wrong)
    exact ⟨k + k', by rw [eq]; omega, iff_of_false (by omega) field⟩

/-- The loop where no number is found -/
theorem destLoop_blank {sep : Char} {n : Nat} {l : List Char} (found : scan 0 l = none) (pos : Nat)
    (vals : List (Option Nat))
    (ih : ∀ pos l vals, Told sep n pos l (destLoop sep n pos l vals).2) :
    Told sep (n + 1) pos l (destLoop sep (n + 1) pos l vals).2 := by
  cases l with
  | nil =>
      have fine : ¬ Unreadable sep (n + 1) [] := by
        rw [Unreadable.eq_def]
        simp only [found]
        exact id
      have ret : (destLoop sep (n + 1) pos [] vals).2 = (pos + (0 : Nat) : Int) := by
        rw [destLoop.eq_def]
        simp only [found]
        rfl
      rw [ret]
      exact Told.consumed fine pos (Nat.zero_le _) fun _ => .inr rfl
  | cons c rest =>
      by_cases same : c = sep
      · subst same
        have field : ¬ NoField c (c :: rest) := by
          rintro ⟨-, c', rest', eq, other⟩
          cases eq
          exact other rfl
        by_cases blank : rest.head?.any isspace = true
        · have fine : ¬ Unreadable c (n + 1) (c :: rest) := by
            rw [unreadable_sep found, blank]
            exact fun bad => absurd bad.1 nofun
          rw [destLoop_sep found, if_pos blank]
          exact Told.consumed fine pos (k := 1) (Nat.succ_le_succ (Nat.zero_le _)) nofun
        · rw [destLoop_sep found, if_neg blank]
          refine (ih (pos + 1) rest (vals ++ [none])).behind (by rw [List.length_cons]; omega)
            Nat.one_pos field ?_
          rw [unreadable_sep found]
          exact and_iff_right (Bool.eq_false_iff.mpr blank)
      · have bad : Unreadable sep (n + 1) (c :: rest) := by
          rw [Unreadable.eq_def]
          simp only [found]
          rw [if_neg same]
          trivial
        have ret : (destLoop sep (n + 1) pos (c :: rest) vals).2 = -(pos + (0 : Nat) : Int) := by
          rw [destLoop.eq_def]
          simp only [found]
          rw [if_neg same]
          rfl
        rw [ret]
        exact Told.refused bad pos (iff_of_true rfl ⟨found, c, rest, rfl, same⟩)

/-- The loop at a number in range -/
theorem destLoop_number {sep : Char} {n : Nat} {l : List Char} {f : Found} (found : scan 0 l = some f)
    (range : ¬ (f.value < 0 ∨ 255 < f.value)) (pos : Nat) (vals : List (Option Nat))
    (ih : ∀ pos l vals, Told sep n pos l (destLoop sep n pos l vals).2) :
    Told sep (n + 1) pos l (destLoop sep (n + 1) pos l vals).2 := by
  have extent := scan_extent found
  have le := scan_extent_le found
  have signed : ¬ (f.signed < 0 ∨ 255 < f.signed) := fun h => range ((signed_outside f).mp h)
  rw [destLoop_found (v := f.signed.toNat) found (by omega) (by omega)]
  cases behind : l.drop f.extent with
  | nil =>
      refine Told.consumed ?_ pos le fun none => absurd none (by omega)
      unfold Unreadable
      simp only [found, behind, or_false]
      exact range
  | cons c rest =>
      have unreadable : Unreadable sep (n + 1) l ↔ isspace c = false ∧ c = sep ∧ Unreadable sep n rest := by
        rw [Unreadable.eq_def]
        simp only [found, behind]
        exact or_iff_right range
      by_cases stop : isspace c = true ∨ c ≠ sep
      · simp only
        rw [if_pos stop]
        refine Told.consumed ?_ pos le fun none => absurd none (by omega)
        rw [unreadable]
        rintro ⟨space, same, -⟩
        rcases stop with blank | ne
        · rw [space] at blank
          cases blank
        · exact ne same
      · obtain ⟨space, same⟩ := not_or.mp stop
        have length := congrArg List.length behind
        rw [List.length_drop, List.length_cons] at length
        simp only
        rw [if_neg stop]
        refine Told.behind (ih (pos + (f.extent + 1)) rest (vals ++ [some f.signed.toNat]))
          (by omega) (Nat.succ_pos _) ?_ ?_
        · intro none
          rw [none.1] at found
          cases found
        · rw [unreadable, and_iff_right (Bool.eq_false_iff.mpr space),
            and_iff_right (Decidable.not_not.mp same)]

theorem destLoop_result (sep : Char) (n pos : Nat) (l : List Char) (vals : List (Option Nat)) :
    Told sep n pos l (destLoop sep n pos l vals).2 := by
  induction n generalizing pos l vals with
  | zero => exact Told.consumed id pos (k := 0) (Nat.zero_le _) fun _ => .inl rfl
  | succ n ih =>
      cases found : scan 0 l with
      | none => exact destLoop_blank found pos vals ih
      | some f =>
          by_cases range : f.value < 0 ∨ 255 < f.value
          · have bad : Unreadable sep (n + 1) l := by
              unfold Unreadable
              simp only [found]
              exact .inl range
            have ret : (destLoop sep (n + 1) pos l vals).2 = -(pos + f.extent : Int) := by
              unfold destLoop
              simp only [found]
              rw [if_pos ((signed_outside f).mpr range)]
            rw [ret]
            refine Told.refused bad pos (iff_of_false ?_ ?_)
            · exact Nat.ne_of_gt (scan_extent found)
            · intro none
              rw [none.1] at found
              cases found
          · exact destLoop_number found range pos vals ih

/-- The number of values that may be read -/
def limit (change : Nat) : Nat := if change = 0 then 7 else change

theorem limit_pos (change : Nat) : 0 < limit change := by
  unfold limit
  split <;> omega

theorem noField_unreadable {sep : Char} {l : List Char} {n : Nat} (none : NoField sep l)
    (some_ : 0 < n) : Unreadable sep n l := by
  obtain ⟨n, rfl⟩ := Nat.exists_eq_succ_of_ne_zero (Nat.ne_of_gt some_)
  obtain ⟨no, c, rest, rfl, other⟩ := none
  simp [Unreadable, no, other]

theorem scan_nil : scan 0 [] = none := scan_blank rfl

/-- The end of the text is no field that cannot be read. -/
theorem readable_nil (sep : Char) (n : Nat) : ¬ Unreadable sep n [] := by
  cases n with
  | zero => exact id
  | succ n =>
      rw [Unreadable.eq_def]
      simp only [scan_nil]
      exact id

theorem stringDest_many {change : Nat} (many : ¬ limit change ≤ 7) (sep : Char) (descr : Option (List Char)) :
    stringDest change sep descr = ([], -1) := by
  unfold stringDest
  exact if_pos (Nat.lt_of_not_le many)

/-- A text that can be read is consumed, but for the end of it nothing is.  One that cannot be read
    is told by a negative result if something stands in front. -/
theorem stringDest_result {change : Nat} (few : limit change ≤ 7) (sep : Char) (descr : List Char) :
    (¬ Unreadable sep (limit change) (descr.dropWhile isspace) →
      ∃ k : Nat, k ≤ descr.length ∧ (stringDest change sep (some descr)).2 = k ∧
        (k = 0 → descr = [])) ∧
    (Unreadable sep (limit change) (descr.dropWhile isspace) →
      ∃ k : Nat, (stringDest change sep (some descr)).2 = -k ∧
        (k = 0 ↔ descr.takeWhile isspace = [] ∧ NoField sep descr)) := by
  have some_ := Nat.ne_of_gt (limit_pos change)
  have parts := congrArg List.length (List.takeWhile_append_dropWhile (p := isspace) (l := descr))
  rw [List.length_append] at parts
  have eq : stringDest change sep (some descr) = destLoop sep (limit change)
      (descr.takeWhile isspace).length (descr.dropWhile isspace) [] := by
    unfold stringDest
    exact if_neg (Nat.not_lt.mpr few)
  obtain ⟨good, bad⟩ := destLoop_result sep (limit change)
    (descr.takeWhile isspace).length (descr.dropWhile isspace) []
  rw [eq]
  constructor
  · intro fine
    obtain ⟨k, le, ret, zero⟩ := good fine
    refine ⟨(descr.takeWhile isspace).length + k, by omega, ret, ?_⟩
    intro none
    have rest := (zero (by omega)).resolve_left some_
    rw [rest, List.length_nil] at parts
    exact List.length_eq_zero_iff.mp (by omega)
  · intro wrong
    obtain ⟨k, ret, zero⟩ := bad wrong
    refine ⟨(descr.takeWhile isspace).length + k, ret, ?_⟩
    have same := List.takeWhile_append_dropWhile (p := isspace) (l := descr)
    constructor
    · intro none
      have front : descr.takeWhile isspace = [] := List.length_eq_zero_iff.mp (by omega)
      rw [front, List.nil_append] at same
      rw [same] at zero
      exact ⟨front, zero.mp (by omega)⟩
    · rintro ⟨front, field⟩
      rw [front, List.nil_append] at same
      rw [same] at zero
      rw [front, zero.mpr field]
      rfl

/-! ## Pairs of numbers -/

theorem stops_colon (l : List Char) : Stops (':' :: l) := .inr ⟨':', l, rfl, fun _ => rfl⟩

/-- A word that is a number is read as such where the number stops. -/
theorem numeral_stops {l after : List Char} {v : Nat} (h : numeral l = some (v, []))
    (small : v ≤ 255) (stops : Stops after) :
    ∃ f, scan 0 (l ++ after) = some f ∧ f.signed = v ∧ f.extent = l.length := by
  unfold numeral at h
  rcases l with _ | ⟨c, l⟩
  · cases h
  · simp only at h
    split at h
    · rename_i digit
      obtain ⟨f, found, same⟩ := Option.map_eq_some_iff.mp h
      obtain ⟨rfl, rest⟩ := Prod.mk.inj same
      have le := scan_extent_le found
      have all := congrArg List.length rest
      rw [List.length_drop, List.length_nil] at all
      refine ⟨f, (scan_stops digit stops).trans found, ?_, by omega⟩
      rw [scan_digit digit] at found
      simp only at found
      split at found
      · cases found
      · have value : f.value = f.magnitude := by
          rw [← Option.some.inj found]
          rfl
        rw [signed_eq, value]
        rw [value]
        unfold IntType.Holds
        constructor
        · simp only [IntType.min]
          omega
        · simp only [IntType.max]
          omega
    · cases h

theorem numeral_head {l rest : List Char} {v : Nat} (h : numeral l = some (v, rest)) :
    ∃ c t, l = c :: t ∧ isspace c = false := by
  unfold numeral at h
  rcases l with _ | ⟨c, l⟩
  · cases h
  · simp only at h
    split at h
    · rename_i digit
      exact ⟨c, l, rfl, (digit_plain digit).1⟩
    · cases h

/-- A pair of numbers at the start of a text is read. -/
theorem stringDest_pair {front lay grf rest : List Char} {l g : Nat} (blank : front.all isspace = true)
    (first : numeral lay = some (l, [])) (second : numeral grf = some (g, [])) (small : l ≤ 255 ∧ g ≤ 255)
    (ends : Ends rest) :
    stringDest 3 ':' (some (front ++ (lay ++ ':' :: (grf ++ rest)))) =
      ([some l, some g], ((front.length + lay.length + 1 + grf.length : Nat) : Int)) := by
  obtain ⟨f, found, value, extent⟩ := numeral_stops first small.1 (stops_colon (grf ++ rest))
  obtain ⟨f', found', value', extent'⟩ := numeral_stops second small.2 ends.stops
  obtain ⟨c, t, rfl, digit⟩ := numeral_head first
  have blanks : ∀ c ∈ front, isspace c = true := List.all_eq_true.mp blank
  have taken : (front ++ (c :: t ++ ':' :: (grf ++ rest))).takeWhile isspace = front := by
    rw [List.takeWhile_append_of_pos blanks, List.cons_append, List.takeWhile_cons,
      if_neg (by simp [digit]), List.append_nil]
  have left : (front ++ (c :: t ++ ':' :: (grf ++ rest))).dropWhile isspace =
      c :: t ++ ':' :: (grf ++ rest) := by
    rw [List.dropWhile_append_of_pos blanks, List.cons_append, List.dropWhile_cons,
      if_neg (by simp [digit])]
  have behind : (c :: t ++ ':' :: (grf ++ rest)).drop f.extent = ':' :: (grf ++ rest) := by
    rw [extent, List.drop_left' rfl]
  have behind' : (grf ++ rest).drop f'.extent = rest := by
    rw [extent', List.drop_left' rfl]
  have start : stringDest 3 ':' (some (front ++ (c :: t ++ ':' :: (grf ++ rest)))) =
      destLoop ':' (2 + 1) front.length (c :: t ++ ':' :: (grf ++ rest)) [] := by
    unfold stringDest
    rw [if_neg (by decide)]
    simp only [taken, left]
    rfl
  rw [start, destLoop_found found value small.1, behind]
  simp only
  rw [if_neg (by decide), destLoop_found (n := 1) found' value' small.2, behind']
  rcases ends with rfl | ⟨s, after, rfl, space⟩
  · simp [extent, extent']
  · simp only
    rw [if_pos (.inl space)]
    simp [extent, extent']

end Mpt.Number
