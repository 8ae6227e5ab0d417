import Mpt.Number.Tostring

/-! # Descriptions of value formats

A description has a sign, a letter, a field width and decimals.  `mpt_valfmt_get` reads one of
them, with the numbers as the C library reads them: behind blanks and signs, too, and as far as
they go.
-/

namespace Mpt.Number

/-- The letter of a format, with its flags, its decimals and what follows; without a letter there
    has to be a digit. -/
def formatLetter : List Char → Option (BitVec 16 × Byte × List Char)
  | [] => none
  | c :: l =>
      match c.toLower with
      | 'f' => some (0, 6, l)
      | 'g' => some (0, 0, l)
      | 'a' => some (Flag.scientific ||| Flag.numberHex, 0, l)
      | 'x' => some (Flag.numberHex, 0, l)
      | 'o' => some (Flag.intOctal ||| Flag.scientific, 0, l)
      | 'e' => some (Flag.scientific, 0, l)
      | _ => if '0' ≤ c ∧ c ≤ '9' then some (0, 0, c :: l) else none

/-- `+` in front -/
def formatSign : List Char → BitVec 16 × List Char
  | '+' :: l => (Flag.sign, l)
  | l => (0, l)

/-- `mpt_valfmt_get`: the consumed length and the format. -/
def valfmtGet (src : List Char) : Length × Option ValueFormat :=
  match src.dropWhile isspace with
  | [] => (.ok (intOf src.length), some .init)
  | pos =>
      let (sign, pos) := formatSign pos
      match formatLetter pos with
      | none => (.error .badArgument, none)
      | some (flags, dec, pos) =>
          let (val, stop) := strtoimax pos 0
          if stop = 0 then (.error .badArgument, none)
          else if val < 0 ∨ 255 < val then (.error .badValue, none)
          else
            let fmt : ValueFormat := ⟨sign ||| flags, .ofNat val.toNat, dec⟩
            match pos.drop stop with
            | [] => (.ok (intOf src.length), some fmt)
            | c :: pos =>
                if isspace c then (.ok (intOf (src.length - (pos.length + 1))), some fmt)
                -- the code of `BadType`
                else if c ≠ '.' then (.error .badType, none)
                else
                  let (val, stop) := strtoimax pos 0
                  if stop = 0 then (.error .badArgument, none)
                  else if val < 0 ∨ 127 ≤ val then (.error .badValue, none)
                  else
                    (.ok (intOf (src.length - (pos.drop stop).length)),
                      some { fmt with dec := .ofNat val.toNat })

/-! ## What is described -/

/-- A number without blanks or sign in front, and what follows. -/
def numeral (l : List Char) : Option (Nat × List Char) :=
  match l with
  | [] => none
  | c :: _ =>
      if '0' ≤ c ∧ c ≤ '9' then (scan 0 l).map fun f => (f.magnitude, l.drop f.extent) else none

/-- The format that a word describes. -/
def describe (word : List Char) : Option ValueFormat :=
  let (sign, l) := formatSign word
  match formatLetter l with
  | none => none
  | some (flags, dec, l) =>
      match numeral l with
      | none => none
      | some (width, l) =>
          if 255 < width then none
          else
            match l with
            | [] => some ⟨sign ||| flags, .ofNat width, dec⟩
            | c :: l =>
                if c ≠ '.' then none
                else
                  match numeral l with
                  | some (dec, []) =>
                      if 127 ≤ dec then none else some ⟨sign ||| flags, .ofNat width, .ofNat dec⟩
                  | _ => none

/-- A number that is taken for the width or the decimals is in its range. -/
def inRange (l : List Char) (limit : Int) : Option (List Char) :=
  match scan 0 l with
  | none => none
  | some f => if 0 ≤ f.value ∧ f.value ≤ limit then some (l.drop f.extent) else none

/-- A text that is read as if it started with a description. -/
def Readable (l : List Char) : Prop :=
  ∃ flags dec pos rest, formatLetter (formatSign l).2 = some (flags, dec, pos) ∧
    inRange pos 255 = some rest ∧
    (rest = [] ∨ (∃ c l, rest = c :: l ∧ isspace c = true) ∨
      ∃ l, rest = '.' :: l ∧ (inRange l 126).isSome)

/-- Formats of the words up to the first that is no description, and the text from there on. -/
def descriptions (text : List Char) : List ValueFormat × Option (List Char) :=
  match _rest : text.dropWhile isspace with
  | [] => ([], none)
  | c :: l =>
      match describe ((c :: l).takeWhile (!isspace ·)) with
      | none => ([], some (c :: l))
      | some fmt =>
          let (fmts, invalid) := descriptions (l.dropWhile (!isspace ·))
          (fmt :: fmts, invalid)
termination_by text.length
decreasing_by
  have := List.length_dropWhile_le isspace text
  have := List.length_dropWhile_le (!isspace ·) l
  rw [_rest, List.length_cons] at *
  omega

/-! ## One description -/

/-- The text ends here, or white space follows. -/
def Ends (after : List Char) : Prop := after = [] ∨ ∃ c l, after = c :: l ∧ isspace c = true

theorem isDigit_space {c : Char} (space : isspace c = true) (base : Nat) : isDigit base c = false := by
  unfold isspace at space
  simp only [Bool.or_eq_true, decide_eq_true_eq] at space
  rcases space with ((((h | h) | h) | h) | h) | h <;> subst h <;> rfl

/-- The text ends here, or no number goes on. -/
def Stops (after : List Char) : Prop :=
  after = [] ∨ ∃ c l, after = c :: l ∧ ∀ base, isDigit base c = false

theorem Ends.stops {after : List Char} (ends : Ends after) : Stops after := by
  rcases ends with rfl | ⟨c, l, rfl, space⟩
  · exact .inl rfl
  · exact .inr ⟨c, l, rfl, isDigit_space space⟩

theorem takeWhile_stops (base : Nat) (l : List Char) {after : List Char} (stops : Stops after) :
    (l ++ after).takeWhile (isDigit base) = l.takeWhile (isDigit base) := by
  induction l with
  | nil =>
      rcases stops with rfl | ⟨c, l, rfl, none⟩
      · rfl
      · simp [none base]
  | cons c l ih => simp [List.takeWhile_cons, ih]

theorem scanBase_stops {l after : List Char} (some : l ≠ []) (stops : Stops after) :
    scanBase 0 (l ++ after) = ((scanBase 0 l).1, (scanBase 0 l).2 ++ after) := by
  rcases l with _ | ⟨a, _ | ⟨x, _ | ⟨c, l⟩⟩⟩
  · contradiction
  · rcases stops with rfl | ⟨s, l, rfl, none⟩
    · simp
    · have ne : s ≠ 'x' ∧ s ≠ 'X' := by
        constructor <;> rintro rfl <;> cases none 36
      by_cases zero : a = '0'
      · subst zero
        simp [scanBase, ne]
      · simp [scanBase, zero]
  · rcases stops with rfl | ⟨s, l, rfl, none⟩
    · simp
    · have none := none 16
      by_cases zero : a = '0'
      · subst zero
        by_cases low : x = 'x'
        · subst low
          simp [scanBase, none]
        · by_cases high : x = 'X'
          · subst high
            simp [scanBase, none]
          · simp [scanBase, low, high]
      · simp [scanBase, zero]
  · by_cases zero : a = '0'
    · subst zero
      by_cases low : x = 'x'
      · subst low
        cases digit : isDigit 16 c <;> simp [scanBase, digit]
      · by_cases high : x = 'X'
        · subst high
          cases digit : isDigit 16 c <;> simp [scanBase, digit]
        · simp [scanBase, low, high]
    · simp [scanBase, zero]

theorem digit_plain {c : Char} (digit : '0' ≤ c ∧ c ≤ '9') :
    isspace c = false ∧ c ≠ '-' ∧ c ≠ '+' := by
  refine ⟨?_, ?_, ?_⟩
  · unfold isspace
    simp only [Bool.or_eq_false_iff, decide_eq_false_iff_not]
    refine ⟨⟨⟨⟨⟨?_, ?_⟩, ?_⟩, ?_⟩, ?_⟩, ?_⟩ <;> rintro rfl <;> exact absurd digit (by decide)
  · rintro rfl
    exact absurd digit (by decide)
  · rintro rfl
    exact absurd digit (by decide)

theorem scanBase_length (base : Nat) (l : List Char) : (scanBase base l).2.length ≤ l.length := by
  unfold scanBase
  split <;> (try split) <;> simp

/-- What is found where a digit stands in front. -/
theorem scan_digit {c : Char} (digit : '0' ≤ c ∧ c ≤ '9') (l : List Char) :
    scan 0 (c :: l) =
      let (base, r) := scanBase 0 (c :: l)
      let digits := r.takeWhile (isDigit base)
      if digits = [] then none
      else some ⟨false, number base digits 0, (c :: l).length - r.length + digits.length⟩ := by
  obtain ⟨space, minus, plus⟩ := digit_plain digit
  have sign : scanSign (c :: l) = (false, c :: l) := by
    unfold scanSign
    split <;> simp_all
  unfold scan
  rw [if_neg (by omega), List.dropWhile_cons, if_neg (by simp [space]), sign]

theorem scan_stops {l after : List Char} {c : Char} (digit : '0' ≤ c ∧ c ≤ '9') (stops : Stops after) :
    scan 0 (c :: l ++ after) = scan 0 (c :: l) := by
  have base := scanBase_stops (List.cons_ne_nil c l) stops
  rw [List.cons_append] at base ⊢
  rw [scan_digit digit, scan_digit digit, base]
  simp only [takeWhile_stops _ _ stops]
  congr 2
  simp only [List.length_cons, List.length_append]
  congr 1
  omega

theorem numeral_found {l : List Char} (h : numeral l = some (v, rest)) (ends : Ends after) :
    ∃ f, scan 0 (l ++ after) = some f ∧ f.value = v ∧ (l ++ after).drop f.extent = rest ++ after := by
  unfold numeral at h
  rcases l with _ | ⟨c, l⟩
  · cases h
  · simp only at h
    split at h
    · rename_i digit
      obtain ⟨f, found, same⟩ := Option.map_eq_some_iff.mp h
      obtain ⟨rfl, rfl⟩ := Prod.mk.inj same
      refine ⟨f, (scan_stops digit ends.stops).trans found, ?_, ?_⟩
      · rw [scan_digit digit] at found
        simp only at found
        split at found
        · cases found
        · rw [← Option.some.inj found]
          rfl
      · rw [scan_digit digit] at found
        simp only at found
        split at found
        · cases found
        · have base := scanBase_length 0 (c :: l)
          have digits := (List.takeWhile_prefix (isDigit (scanBase 0 (c :: l)).1)
            (l := (scanBase 0 (c :: l)).2)).length_le
          rw [List.drop_append_of_le_length]
          rw [← Option.some.inj found]
          simp only
          omega
    · cases h

theorem formatLetter_append {l : List Char} (h : formatLetter l = some (flags, dec, rest))
    (after : List Char) : formatLetter (l ++ after) = some (flags, dec, rest ++ after) := by
  rcases l with _ | ⟨c, l⟩
  · cases h
  · unfold formatLetter at h ⊢
    rw [List.cons_append]
    simp only at h ⊢
    split at h <;> try (cases h; rfl)
    split at h
    · rename_i digit
      cases h
      rw [if_pos digit]
      rfl
    · cases h

theorem strtoimax_found {text : List Char} (found : scan 0 text = some f) (low : 0 ≤ f.value)
    (high : f.value ≤ 255) : strtoimax text 0 = (f.value, f.extent) := by
  have same : f.signed = f.value := signed_eq ⟨by simp only [IntType.min]; omega, by simp only [IntType.max]; omega⟩
  rw [strtoimax, found, ← same]

theorem formatSign_append {l : List Char} (some : l ≠ []) (after : List Char) :
    formatSign (l ++ after) = ((formatSign l).1, (formatSign l).2 ++ after) := by
  rcases l with _ | ⟨c, l⟩
  · contradiction
  · by_cases plus : c = '+'
    · subst plus
      rfl
    · have none : ∀ l, formatSign (c :: l) = (0, c :: l) := by
        intro l
        unfold formatSign
        split <;> simp_all
      rw [List.cons_append, none, none]
      rfl

/-- A description is read with the white space in front of it, and no more. -/
theorem valfmtGet_described {text word after : List Char} (h : describe word = some fmt)
    (ends : Ends after) (front : text.dropWhile isspace = word ++ after) :
    valfmtGet text = (.ok (intOf (text.length - after.length)), some fmt) := by
  have given : word ≠ [] := by
    rintro rfl
    cases h
  unfold describe at h
  unfold valfmtGet
  rw [front]
  have pos : word ++ after ≠ [] := List.append_ne_nil_of_left_ne_nil given after
  split
  · contradiction
  rw [formatSign_append given]
  rcases signed : formatSign word with ⟨sign, l⟩
  rw [signed] at h
  simp only at h ⊢
  cases letter : formatLetter l with
  | none =>
      rw [letter] at h
      cases h
  | some found =>
      obtain ⟨flags, dec, l'⟩ := found
      rw [letter] at h
      rw [formatLetter_append letter after]
      simp only at h ⊢
      cases width : numeral l' with
      | none =>
          rw [width] at h
          cases h
      | some found =>
          obtain ⟨v, rest⟩ := found
          rw [width] at h
          simp only at h
          split at h
          · cases h
          · rename_i small
            obtain ⟨f, found, value, drop⟩ := numeral_found width ends
            have extent := scan_extent found
            rw [strtoimax_found found (by omega) (by omega)]
            simp only
            rw [if_neg (by omega), if_neg (by omega), drop, value, Int.toNat_natCast]
            rcases rest with _ | ⟨c, rest⟩
            · cases h
              rcases ends with rfl | ⟨s, l, rfl, space⟩
              · rfl
              · simp only [List.nil_append, space, if_true, List.length_cons]
            · simp only at h
              split at h
              · cases h
              · rename_i point
                have point : c = '.' := Decidable.not_not.mp point
                subst point
                cases decimals : numeral rest with
                | none =>
                    rw [decimals] at h
                    cases h
                | some found =>
                    obtain ⟨d, tail⟩ := found
                    rw [decimals] at h
                    rcases tail with _ | ⟨t, tail⟩
                    · simp only at h
                      split at h
                      · cases h
                      · cases h
                        obtain ⟨g, found, value, drop⟩ := numeral_found decimals ends
                        have extent := scan_extent found
                        rw [List.cons_append]
                        simp only
                        rw [if_neg (by decide), if_neg (by decide),
                          strtoimax_found found (by omega) (by omega)]
                        simp only
                        rw [if_neg (by omega), if_neg (by omega), drop, value, Int.toNat_natCast]
                        rfl
                    · cases h

theorem signed_range (f : Found) {limit : Int} (low : 0 ≤ limit) (high : limit < 2 ^ 63 - 1) :
    (f.signed < 0 ∨ limit < f.signed) ↔ ¬ (0 ≤ f.value ∧ f.value ≤ limit) := by
  unfold Found.signed int64Min int64Max
  omega

theorem inRange_none {l : List Char} (h : scan 0 l = none) (limit : Int) : inRange l limit = none := by
  rw [inRange, h]

theorem inRange_found {l : List Char} (h : scan 0 l = some f) (limit : Int) :
    inRange l limit = if 0 ≤ f.value ∧ f.value ≤ limit then some (l.drop f.extent) else none := by
  rw [inRange, h]

theorem formatLetter_length {l : List Char} (h : formatLetter l = some (flags, dec, rest)) :
    rest.length ≤ l.length := by
  rcases l with _ | ⟨c, l⟩
  · cases h
  · unfold formatLetter at h
    simp only at h
    split at h
    all_goals
      first
      | cases h
        simp
      | split at h
        · cases h
          simp
        · cases h

theorem formatSign_length (l : List Char) : (formatSign l).2.length ≤ l.length := by
  unfold formatSign
  split <;> simp

theorem drop_found {l : List Char} (h : scan 0 l = some f) : (l.drop f.extent).length < l.length := by
  have extent := scan_extent h
  have given : l ≠ [] := by
    rintro rfl
    cases h
  have := List.length_pos_of_ne_nil given
  rw [List.length_drop]
  omega

theorem readable_behind {l pos rest : List Char} {flags : BitVec 16} {dec : Byte}
    (letter : formatLetter (formatSign l).2 = some (flags, dec, pos)) (width : inRange pos 255 = some rest) :
    Readable l ↔ rest = [] ∨ (∃ c l, rest = c :: l ∧ isspace c = true) ∨
      ∃ l, rest = '.' :: l ∧ (inRange l 126).isSome := by
  unfold Readable
  constructor
  · rintro ⟨_, _, _, _, same, range, tail⟩
    cases letter.symm.trans same
    cases width.symm.trans range
    exact tail
  · intro tail
    exact ⟨_, _, _, _, letter, width, tail⟩

theorem unreadable_width {l pos : List Char} {flags : BitVec 16} {dec : Byte}
    (letter : formatLetter (formatSign l).2 = some (flags, dec, pos)) (width : inRange pos 255 = none) :
    ¬ Readable l := by
  rintro ⟨_, _, _, _, same, range, -⟩
  cases letter.symm.trans same
  cases width.symm.trans range

theorem readable_point {l pos r : List Char} {c : Char} {flags : BitVec 16} {dec : Byte}
    (letter : formatLetter (formatSign l).2 = some (flags, dec, pos))
    (width : inRange pos 255 = some (c :: r)) (space : ¬ isspace c = true) :
    Readable l ↔ c = '.' ∧ (inRange r 126).isSome := by
  rw [readable_behind letter width]
  constructor
  · rintro (none | ⟨c', l, same, blank⟩ | ⟨l, same, found⟩)
    · cases none
    · cases same
      exact absurd blank space
    · cases same
      exact ⟨rfl, found⟩
  · rintro ⟨rfl, found⟩
    exact .inr (.inr ⟨r, rfl, found⟩)

/-- Text is read exactly where it is readable. -/
theorem valfmtGet_readable {text l : List Char} (given : l ≠ []) (front : text.dropWhile isspace = l) :
    (Readable l ∧ ∃ n fmt, 0 < n ∧ n ≤ text.length ∧ valfmtGet text = (.ok (intOf n), some fmt)) ∨
    (¬ Readable l ∧ ∃ e, valfmtGet text = (.error e, none)) := by
  have inside : l.length ≤ text.length := by
    rw [← front]
    exact List.length_dropWhile_le isspace text
  have short := formatSign_length l
  have some_ := List.length_pos_of_ne_nil given
  unfold valfmtGet
  rw [front]
  split
  · contradiction
  cases letter : formatLetter (formatSign l).2 with
  | none =>
      refine .inr ⟨?_, .badArgument, by simp only [letter]⟩
      rintro ⟨_, _, _, _, same, -⟩
      cases letter.symm.trans same
  | some found =>
      obtain ⟨flags, dec, pos⟩ := found
      have shorter := formatLetter_length letter
      simp only [letter]
      cases width : scan 0 pos with
      | none =>
          refine .inr ⟨unreadable_width letter (inRange_none width 255), .badArgument, ?_⟩
          rw [strtoimax, width]
          rfl
      | some f =>
          have range := inRange_found width 255
          have extent := scan_extent width
          have dropped := drop_found width
          simp only [strtoimax, width]
          rw [if_neg (by omega)]
          by_cases small : 0 ≤ f.value ∧ f.value ≤ 255
          · rw [if_pos small] at range
            rw [if_neg (mt (signed_range f (by omega) (by omega)).mp (not_not_intro small))]
            rcases rest : pos.drop f.extent with _ | ⟨c, r⟩
            · rw [rest] at range
              exact .inl ⟨(readable_behind letter range).mpr (.inl rfl), text.length, _, by omega,
                by omega, rfl⟩
            · rw [rest] at range dropped
              rw [List.length_cons] at dropped
              simp only
              by_cases space : isspace c = true
              · rw [if_pos space]
                exact .inl ⟨(readable_behind letter range).mpr (.inr (.inl ⟨c, r, rfl, space⟩)), _, _,
                  by omega, by omega, rfl⟩
              · rw [if_neg space, readable_point letter range space]
                by_cases point : c = '.'
                · rw [if_neg (not_not_intro point)]
                  cases decimals : scan 0 r with
                  | none =>
                      rw [inRange_none decimals]
                      exact .inr ⟨fun readable => absurd readable.2 (by simp), .badArgument, rfl⟩
                  | some g =>
                      have extent' := scan_extent decimals
                      have dropped' := drop_found decimals
                      simp only
                      rw [if_neg (by omega)]
                      by_cases small' : 0 ≤ g.value ∧ g.value ≤ 126
                      · have fits := mt (signed_range g (by omega) (by omega)).mp (not_not_intro small')
                        rw [inRange_found decimals, if_pos small', if_neg (by omega)]
                        exact .inl ⟨⟨point, rfl⟩, _, _, by omega, by omega, rfl⟩
                      · have out := (signed_range g (by omega) (by omega)).mpr small'
                        rw [inRange_found decimals, if_neg small', if_pos (by omega)]
                        exact .inr ⟨fun readable => absurd readable.2 (by simp), .badValue, rfl⟩
                · rw [if_pos point]
                  exact .inr ⟨fun readable => point readable.1, .badType, rfl⟩
          · rw [if_neg small] at range
            rw [if_pos ((signed_range f (by omega) (by omega)).mpr small)]
            exact .inr ⟨unreadable_width letter range, .badValue, rfl⟩

end Mpt.Number

