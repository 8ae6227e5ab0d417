import Mpt.Plot.Linepart

/-! # Logarithmic transformations in pieces

`apply_log` takes the logarithms of the values of a part 32 at a time and gives each piece to the
routine for linear transformations.  Reading outside of an array is an error here.
-/

namespace Mpt.Plot

/-- `struct value_apply` -/
structure ValueApply (K : Type u) where
  scale : K
  add : K
  dir : Point K

variable {K : Type u} [Field K]

/-- The point with a value added in a scale. -/
def Point.plus (p scale : Point K) (value : K) : Point K :=
  ⟨p.x + scale.x * value, p.y + scale.y * value⟩

/-- A point in an array is changed by a value. -/
def changePoint (dest : Nat → Point K) (i : Nat) (scale : Point K) (value : K) : Nat → Point K :=
  Function.update dest i ((dest i).plus scale value)

/-- The loop of `apply` over `n` values from `src[j]` on, to the points from `pos` on. -/
def addValues (src : List K) (scale : Point K) (pos : Nat) :
    (n j : Nat) → (dest : Nat → Point K) → Option (Nat → Point K)
  | 0, _, dest => some dest
  | n + 1, j, dest =>
      src[j]?.bind fun value => addValues src scale pos n (j + 1) (changePoint dest (pos + j) scale value)

/-- `src[len - 1]` and `src[len]` for the last of `usr` points. -/
def lastValues (src : List K) : (usr : Nat) → Option (K × K)
  | usr + 2 => src[usr]?.bind fun s1 => src[usr + 1]?.map fun s2 => (s1, s2)
  -- before the array
  | _ => none

section
variable [DecidableEq K]

/-- The first point of a part, with the position of the next. -/
def cutPoint (pt : Linepart) (src : List K) (scale : Point K) (pos : Nat) (dest : Nat → Point K) :
    Option ((Nat → Point K) × Nat) :=
  if (linepartReal pt.cut : K) = 0 then some (dest, 0) else
    src[0]?.bind fun s1 => src[1]?.map fun s2 =>
      (changePoint dest pos scale (s1 + linepartReal pt.cut * (s2 - s1)), 1)

/-- The last point of a part, with the number of those before. -/
def trimPoint (pt : Linepart) (src : List K) (scale : Point K) (pos : Nat) (dest : Nat → Point K) :
    Option ((Nat → Point K) × Nat) :=
  if (linepartReal pt.trim : K) = 0 then some (dest, pt.usr.toNat) else
    (lastValues src pt.usr.toNat).map fun (s1, s2) =>
      let len := pt.usr.toNat - 1
      (changePoint dest (pos + len) scale (s2 + linepartReal pt.trim * (s1 - s2)), len)

/-- `apply` with a scale, to the points from `pos` on. -/
def applyScaled (pt : Linepart) (src : List K) (scale : Point K) (pos : Nat)
    (dest : Nat → Point K) : Option (Nat → Point K) :=
  if (linepartReal pt.cut : K) ≠ 0 ∧ pt.raw < 2 then some dest else
    (cutPoint pt src scale pos dest).bind fun (dest, j) =>
      if (linepartReal pt.trim : K) ≠ 0 ∧ pt.raw < 2 then some dest else
        (trimPoint pt src scale pos dest).bind fun (dest, len) =>
          addValues src scale pos (len - j) j dest

/-- The offset, which the loop adds to the first point every time. -/
def addOffset (offset : Point K) (pos : Nat) (dest : Nat → Point K) : (n : Nat) → Nat → Point K
  | 0 => dest
  | n + 1 =>
      let dest := addOffset offset pos dest n
      Function.update dest pos ⟨(dest pos).x + offset.x, (dest pos).y + offset.y⟩

/-- The offset of the values. -/
def ValueApply.offset (v : ValueApply K) : Point K := ⟨v.dir.x * v.add, v.dir.y * v.add⟩

/-- The scale of the values. -/
def ValueApply.factor (v : ValueApply K) : Point K := ⟨v.dir.x * v.scale, v.dir.y * v.scale⟩

/-- `apply` with the offset and scale of an axis. -/
def applyLinear (pt : Linepart) (src : List K) (v : ValueApply K) (pos : Nat)
    (dest : Nat → Point K) : Option (Nat → Point K) :=
  applyScaled pt src v.factor pos (addOffset v.offset pos dest pt.usr.toNat)

/-- The logarithms of the next `n` values. -/
def logs (log10 : K → K) : (n : Nat) → (src : List K) → Option (List K)
  | 0, _ => some []
  | _ + 1, [] => none
  | n + 1, value :: src => (logs log10 n src).map (log10 value :: ·)

/-- The next piece of a part. -/
def Linepart.piece (all : Linepart) : Linepart :=
  if 32 < all.usr then { all with usr := 32, trim := 0 } else all

/-- What is left of a part after a piece. -/
def Linepart.rest (all curr : Linepart) : Linepart :=
  { all with usr := all.usr - curr.usr, raw := all.raw - curr.usr, cut := 0 }

/-- The loop of `apply_log`. -/
def applyLogLoop (log10 : K → K) (v : ValueApply K) :
    (fuel : Nat) → (all : Linepart) → (src : List K) → (pos : Nat) → (dest : Nat → Point K) →
      Option (Nat → Point K)
  | 0, _, _, _, dest => some dest
  | fuel + 1, all, src, pos, dest =>
      if all.usr = 0 then some dest else
        let curr := all.piece
        (logs log10 curr.usr.toNat src).bind fun tmp =>
          (applyLinear curr tmp v pos dest).bind fun dest =>
            applyLogLoop log10 v fuel (all.rest curr) (src.drop curr.usr.toNat)
              (pos + curr.usr.toNat) dest

/-- `apply_log` -/
def applyLog (log10 : K → K) (pt : Linepart) (src : List K) (v : ValueApply K)
    (dest : Nat → Point K) : Option (Nat → Point K) :=
  applyLogLoop log10 v pt.usr.toNat pt src 0 dest

end

/-! ## What the linear routine does -/

/-- The value of a point of a part. -/
def Linepart.value (pt : Linepart) (src : List K) (j : Nat) : K :=
  if pt.cut ≠ 0 ∧ j = 0 then
    src.getD 0 0 + linepartReal pt.cut * (src.getD 1 0 - src.getD 0 0)
  else if pt.trim ≠ 0 ∧ j + 1 = pt.usr.toNat then
    src.getD j 0 + linepartReal pt.trim * (src.getD (j - 1) 0 - src.getD j 0)
  else
    src.getD j 0

/-- The points, with values added to those of a range. -/
def changed (dest : Nat → Point K) (scale : Point K) (value : Nat → K) (pos n : Nat) :
    Nat → Point K :=
  fun i => if pos ≤ i ∧ i < pos + n then (dest i).plus scale (value (i - pos)) else dest i

/-- A part with an end that is cut has two points. -/
def Linepart.Ends (pt : Linepart) : Prop :=
  pt.cut ≠ 0 ∨ pt.trim ≠ 0 → 2 ≤ pt.raw ∧ 2 ≤ pt.usr.toNat

variable {pt : Linepart} {src : List K} {scale : Point K} {pos : Nat} {dest : Nat → Point K}

theorem changed_congr {value value' : Nat → K} {n : Nat} (same : ∀ j < n, value j = value' j) :
    changed dest scale value pos n = changed dest scale value' pos n := by
  funext i
  unfold changed
  by_cases inner : pos ≤ i ∧ i < pos + n
  · rw [if_pos inner, if_pos inner, same (i - pos) (by omega)]
  · rw [if_neg inner, if_neg inner]

/-- A point is changed, then those behind it. -/
theorem changed_first (value : Nat → K) (first : K) (n : Nat) :
    changed (changePoint dest pos scale first) scale value (pos + 1) n =
      changed dest scale (fun i => if i = 0 then first else value (i - 1)) pos (n + 1) := by
  funext i
  unfold changed changePoint
  by_cases here : i = pos
  · subst here
    rw [if_neg (by omega), if_pos (by omega), Function.update_self, Nat.sub_self]
    rfl
  · rw [Function.update_of_ne here]
    by_cases inner : pos ≤ i ∧ i < pos + (n + 1)
    · rw [if_pos (by omega), if_pos inner, ← Nat.sub_sub]
      beta_reduce
      rw [if_neg (by omega)]
    · rw [if_neg (by omega), if_neg inner]

/-- A point is changed, then those before it. -/
theorem changed_last (value : Nat → K) (last : K) (n : Nat) :
    changed (changePoint dest (pos + n) scale last) scale value pos n =
      changed dest scale (fun i => if i = n then last else value i) pos (n + 1) := by
  funext i
  unfold changed changePoint
  by_cases here : i = pos + n
  · subst here
    rw [if_neg (by omega), if_pos (by omega), Function.update_self, Nat.add_sub_cancel_left]
    beta_reduce
    rw [if_pos rfl]
  · rw [Function.update_of_ne here]
    by_cases inner : pos ≤ i ∧ i < pos + (n + 1)
    · rw [if_pos (by omega), if_pos inner]
      beta_reduce
      rw [if_neg (by omega)]
    · rw [if_neg (by omega), if_neg inner]

theorem getElem_getD {j : Nat} (inside : j < src.length) : src[j]? = some (src.getD j 0) := by
  rw [List.getD_eq_getElem?_getD, List.getElem?_eq_getElem inside]
  rfl

theorem addValues_eq {n j : Nat} (inside : j + n ≤ src.length) :
    addValues src scale pos n j dest =
      some (changed dest scale (fun i => src.getD (j + i) 0) (pos + j) n) := by
  induction n generalizing j dest with
  | zero =>
      refine congrArg some (funext fun i => ?_)
      rw [changed, if_neg (by omega)]
  | succ n ih =>
      unfold addValues
      rw [getElem_getD (by omega), Option.bind_some, ih (by omega), ← Nat.add_assoc, changed_first]
      refine congrArg some (changed_congr fun i _ => ?_)
      by_cases first : i = 0
      · rw [if_pos first, first, Nat.add_zero]
      · rw [if_neg first]
        congr 1
        omega

/-- Points before those of the part stay as they are. -/
theorem addValues_frame {n j : Nat} {dest' : Nat → Point K}
    (done : addValues src scale pos n j dest = some dest') {i : Nat} (before : i < pos) :
    dest' i = dest i := by
  induction n generalizing j dest with
  | zero => cases done; rfl
  | succ n ih =>
      obtain ⟨value, _, rest⟩ := Option.bind_eq_some_iff.mp done
      rw [ih rest, changePoint, Function.update_of_ne (by omega)]

theorem addOffset_first (offset : Point K) (n : Nat) :
    addOffset offset pos dest n pos =
      ⟨(dest pos).x + n * offset.x, (dest pos).y + n * offset.y⟩ := by
  induction n with
  | zero => simp [addOffset]
  | succ n ih =>
      simp only [addOffset, Function.update_self, ih, Nat.cast_succ]
      exact Point.ext (by ring) (by ring)

theorem addOffset_others (offset : Point K) (n : Nat) {i : Nat} (other : i ≠ pos) :
    addOffset offset pos dest n i = dest i := by
  induction n with
  | zero => rfl
  | succ n ih => rw [addOffset, Function.update_of_ne other, ih]

theorem addOffset_zero {offset : Point K} (x : offset.x = 0) (y : offset.y = 0) (n : Nat) :
    addOffset offset pos dest n = dest := by
  funext i
  by_cases first : i = pos
  · subst first
    rw [addOffset_first, x, y]
    simp
  · exact addOffset_others offset n first

omit [Field K] in
theorem logs_eq {log10 : K → K} {n : Nat} (enough : n ≤ src.length) :
    logs log10 n src = some ((src.take n).map log10) := by
  induction n generalizing src with
  | zero => rfl
  | succ n ih =>
      cases src with
      | nil => cases enough
      | cons value src =>
          rw [logs, ih (Nat.le_of_succ_le_succ enough)]
          rfl

variable [DecidableEq K]

theorem applyScaled_frame {dest' : Nat → Point K}
    (done : applyScaled pt src scale pos dest = some dest') {i : Nat} (before : i < pos) :
    dest' i = dest i := by
  unfold applyScaled at done
  split at done
  · cases done
    rfl
  · obtain ⟨⟨dest₁, j⟩, first, done⟩ := Option.bind_eq_some_iff.mp done
    have kept : dest₁ i = dest i := by
      unfold cutPoint at first
      split at first
      · cases first
        rfl
      · obtain ⟨s1, _, first⟩ := Option.bind_eq_some_iff.mp first
        obtain ⟨s2, _, first⟩ := Option.map_eq_some_iff.mp first
        cases first
        rw [changePoint, Function.update_of_ne (by omega)]
    simp only at done
    split at done
    · cases done
      exact kept
    · obtain ⟨⟨dest₂, len⟩, last, done⟩ := Option.bind_eq_some_iff.mp done
      rw [addValues_frame done before, ← kept]
      unfold trimPoint at last
      split at last
      · cases last
        rfl
      · obtain ⟨⟨s1, s2⟩, _, last⟩ := Option.map_eq_some_iff.mp last
        cases last
        simp only [changePoint]
        rw [Function.update_of_ne (by omega)]

variable {v : ValueApply K} {log10 : K → K}

theorem applyLinear_frame {dest' : Nat → Point K}
    (done : applyLinear pt src v pos dest = some dest') {i : Nat} (before : i < pos) :
    dest' i = dest i := by
  rw [applyScaled_frame done before, addOffset_others _ _ (by omega)]

theorem applyLogLoop_frame {fuel : Nat} {dest' : Nat → Point K}
    (done : applyLogLoop log10 v fuel pt src pos dest = some dest') {i : Nat} (before : i < pos) :
    dest' i = dest i := by
  induction fuel generalizing pt src pos dest with
  | zero => cases done; rfl
  | succ fuel ih =>
      unfold applyLogLoop at done
      split at done
      · cases done
        rfl
      · obtain ⟨tmp, _, done⟩ := Option.bind_eq_some_iff.mp done
        obtain ⟨dest₁, first, done⟩ := Option.bind_eq_some_iff.mp done
        rw [ih done (by omega), applyLinear_frame first before]

variable [CharZero K]

/-- The linear routine adds a value to each point. -/
theorem applyScaled_eq (size : src.length = pt.usr.toNat) (ends : pt.Ends) :
    applyScaled pt src scale pos dest = some (changed dest scale (pt.value src) pos pt.usr.toNat) := by
  obtain ⟨raw, usr, cut, trim⟩ := pt
  unfold Linepart.Ends at ends
  unfold applyScaled cutPoint trimPoint Linepart.value
  simp only [linepartReal_eq_zero, ne_eq] at ends size ⊢
  by_cases whole : cut = 0 ∧ trim = 0
  · obtain ⟨rfl, rfl⟩ := whole
    simp only [not_true, false_and, if_false, if_true, Option.bind_some, Nat.sub_zero]
    rw [addValues_eq (by omega)]
    simp only [Nat.zero_add, Nat.add_zero]
  · obtain ⟨two, points⟩ := ends (by
      by_cases cut = 0
      · exact .inr fun zero => whole ⟨‹_›, zero⟩
      · exact .inl ‹_›)
    have enough : ¬ raw < 2 := UInt16.not_lt.mpr two
    obtain ⟨n, count⟩ := Nat.exists_eq_add_of_le' points
    have last : lastValues src usr.toNat = some (src.getD n 0, src.getD (n + 1) 0) := by
      simp only [count, lastValues, getElem_getD (show n < src.length by omega),
        getElem_getD (show n + 1 < src.length by omega), Option.bind_some, Option.map_some]
    simp only [enough, and_false, if_false, last, Option.map_some,
      getElem_getD (show 0 < src.length by omega), getElem_getD (show 1 < src.length by omega)]
    by_cases first : cut = 0
    · have final : trim ≠ 0 := fun zero => whole ⟨first, zero⟩
      simp only [first, final, not_true, not_false_eq_true, if_true, if_false, Option.bind_some,
        Nat.sub_zero, false_and, true_and, count]
      rw [addValues_eq (by omega), show pos + 0 = pos from rfl, show n + 2 - 1 = n + 1 from rfl, changed_last]
      refine congrArg some (changed_congr fun j _ => ?_)
      by_cases here : j = n + 1
      · subst here
        rw [if_pos rfl, if_pos rfl, Nat.add_sub_cancel]
      · rw [if_neg here, if_neg (by omega), Nat.zero_add]
    · by_cases final : trim = 0
      · simp only [first, final, not_true, not_false_eq_true, if_true, if_false, Option.bind_some,
          false_and, true_and, count]
        rw [addValues_eq (by omega), show n + 2 - 1 = n + 1 from rfl, changed_first]
        refine congrArg some (changed_congr fun j _ => ?_)
        by_cases here : j = 0
        · rw [if_pos here, if_pos here]
        · rw [if_neg here, if_neg here, show 1 + (j - 1) = j by omega]
      · simp only [first, final, not_false_eq_true, if_false, Option.bind_some, true_and, count]
        rw [addValues_eq (by omega), show n + 2 - 1 - 1 = n from rfl,
          show pos + (n + 2 - 1) = pos + 1 + n by omega, changed_last, changed_first]
        refine congrArg some (changed_congr fun j _ => ?_)
        by_cases here : j = 0
        · rw [if_pos here, if_pos here]
        · rw [if_neg here, if_neg here]
          by_cases end_ : j = n + 1
          · subst end_
            rw [if_pos (by omega), if_pos rfl, Nat.add_sub_cancel]
          · rw [if_neg (by omega), if_neg (by omega), show 1 + (j - 1) = j by omega]

/-- A part that is cut but has one point only stays as it is. -/
theorem applyScaled_short (one : pt.raw.toNat < 2) (ends : pt.cut ≠ 0 ∨ pt.trim ≠ 0) :
    applyScaled pt src scale pos dest = some dest := by
  have short : pt.raw < 2 := UInt16.lt_iff_toNat_lt.mpr one
  unfold applyScaled cutPoint
  simp only [linepartReal_eq_zero, ne_eq, short, and_true] at ends ⊢
  by_cases first : pt.cut = 0
  · have last : pt.trim ≠ 0 := ends.resolve_left (not_not.mpr first)
    simp [first, last]
  · simp [first]

/-! ## Pieces and the whole -/

/-- The number of points in the last piece. -/
def Linepart.tail (pt : Linepart) : Nat := (pt.usr.toNat - 1) % 32 + 1

/-- The parts whose pieces are changed as the whole is. -/
structure Piecewise (v : ValueApply K) (pt : Linepart) : Prop where
  single : pt.usr.toNat ≤ 1 → 2 ≤ pt.raw.toNat → pt.cut = 0 ∧ pt.trim = 0
  offset : 32 < pt.usr.toNat → v.offset.x = 0 ∧ v.offset.y = 0
  last : 32 < pt.usr.toNat → pt.trim = 0 ∨ 3 ≤ pt.tail ∨ (pt.tail = 2 ∧ pt.usr.toNat ≤ pt.raw.toNat) ∨
    ((v.factor.x = 0 ∧ v.factor.y = 0) ∧ (pt.tail = 2 ∨ pt.raw.toNat ≤ pt.usr.toNat))

/-- `apply_log` changes the points as the linear routine does with the logarithms, and both read
    nothing but the values of the part. -/
def Agrees (v : ValueApply K) (pt : Linepart) : Prop :=
  ∀ (log10 : K → K) (src : List K) (dest : Nat → Point K), src.length = pt.usr.toNat →
    ∃ points, applyLog log10 pt src v dest = some points ∧
      applyLinear pt (src.map log10) v 0 dest = some points

omit [CharZero K] in
theorem applyLinear_scaled (x : v.offset.x = 0) (y : v.offset.y = 0) :
    applyLinear pt src v pos dest = applyScaled pt src v.factor pos dest := by
  rw [applyLinear, addOffset_zero x y]

omit [CharZero K] in
theorem applyLogLoop_nil (none : pt.usr = 0) (fuel : Nat) :
    applyLogLoop log10 v fuel pt src pos dest = some dest := by
  cases fuel with
  | zero => rfl
  | succ fuel => rw [applyLogLoop, if_pos none]

/-- A part that is not too short is changed. -/
theorem applyScaled_some (size : src.length = pt.usr.toNat)
    (single : pt.usr.toNat ≤ 1 → 2 ≤ pt.raw.toNat → pt.cut = 0 ∧ pt.trim = 0) :
    ∃ points, applyScaled pt src scale pos dest = some points := by
  by_cases cut : pt.cut ≠ 0 ∨ pt.trim ≠ 0
  · by_cases short : pt.raw.toNat < 2
    · exact ⟨dest, applyScaled_short short cut⟩
    · refine ⟨_, applyScaled_eq size fun _ => ⟨?_, ?_⟩⟩
      · exact UInt16.le_iff_toNat_le.mpr (Nat.le_of_not_lt short)
      · by_contra few
        obtain ⟨first, last⟩ := single (by omega) (by omega)
        exact cut.elim (absurd first) (absurd last)
  · exact ⟨_, applyScaled_eq size fun ends => absurd ends cut⟩

theorem piece_long (long : 32 < pt.usr.toNat) : pt.piece = { pt with usr := 32, trim := 0 } := by
  rw [Linepart.piece, if_pos]
  rw [UInt16.lt_iff_toNat_lt]
  exact long

theorem piece_short (short : pt.usr.toNat ≤ 32) : pt.piece = pt := by
  rw [Linepart.piece, if_neg]
  rw [UInt16.lt_iff_toNat_lt]
  exact Nat.not_lt.mpr short

/-- What is left after the first piece. -/
theorem rest_long (long : 32 < pt.usr.toNat) (order : pt.usr.toNat ≤ pt.raw.toNat + 1) :
    (pt.rest { pt with usr := 32, trim := 0 }).usr.toNat = pt.usr.toNat - 32 ∧
      (pt.rest { pt with usr := 32, trim := 0 }).raw.toNat = pt.raw.toNat - 32 := by
  unfold Linepart.rest
  constructor
  · exact UInt16.toNat_sub_of_le _ _ (UInt16.le_iff_toNat_le.mpr (Nat.le_of_lt long))
  · exact UInt16.toNat_sub_of_le _ _ (UInt16.le_iff_toNat_le.mpr
      (Nat.le_of_lt_succ (Nat.lt_of_lt_of_le long order)))

omit [DecidableEq K] [CharZero K] in
/-- Two ranges are changed, one behind the other. -/
theorem changed_append (value value' : Nat → K) (n m : Nat) :
    changed (changed dest scale value pos n) scale value' (pos + n) m =
      changed dest scale (fun j => if j < n then value j else value' (j - n)) pos (n + m) := by
  funext i
  unfold changed
  by_cases behind : pos + n ≤ i ∧ i < pos + n + m
  · rw [if_pos behind, if_neg (by omega), if_pos (by omega), ← Nat.sub_sub]
    beta_reduce
    rw [if_neg (by omega)]
  · rw [if_neg behind]
    by_cases inner : pos ≤ i ∧ i < pos + n
    · rw [if_pos inner, if_pos (by omega)]
      beta_reduce
      rw [if_pos (by omega)]
    · rw [if_neg inner, if_neg (by omega)]

omit [DecidableEq K] [CharZero K] in
theorem changed_zero (x : scale.x = 0) (y : scale.y = 0) (value : Nat → K) (n : Nat) :
    changed dest scale value pos n = dest := by
  funext i
  unfold changed Point.plus
  split
  · rw [x, y]
    simp
  · rfl

omit [DecidableEq K] [CharZero K] in
/-- The values of the first piece and of the rest are those of the whole. -/
theorem value_split (long : 32 < pt.usr.toNat) (order : pt.usr.toNat ≤ pt.raw.toNat + 1)
    (ends : (pt.rest { pt with usr := 32, trim := 0 }).Ends) {j : Nat} (inside : j < pt.usr.toNat) :
    (if j < 32 then ({ pt with usr := 32, trim := 0 } : Linepart).value (src.take 32) j
      else (pt.rest { pt with usr := 32, trim := 0 }).value (src.drop 32) (j - 32)) = pt.value src j := by
  obtain ⟨usr, raw⟩ := rest_long long order
  have taken {i : Nat} (first : i < 32) : (src.take 32).getD i 0 = src.getD i 0 := by
    rw [List.getD_eq_getElem?_getD, List.getD_eq_getElem?_getD, List.getElem?_take_of_lt first]
  have dropped (i : Nat) : (src.drop 32).getD i 0 = src.getD (32 + i) 0 := by
    rw [List.getD_eq_getElem?_getD, List.getD_eq_getElem?_getD, List.getElem?_drop]
  by_cases first : j < 32
  · rw [if_pos first]
    unfold Linepart.value
    simp only [taken first, taken (show 0 < 32 by omega), taken (show 1 < 32 by omega),
      ne_eq, not_true, false_and, if_false]
    by_cases cut : ¬ pt.cut = 0 ∧ j = 0
    · rw [if_pos cut, if_pos cut]
    · rw [if_neg cut, if_neg cut, if_neg (by omega)]
  · rw [if_neg first]
    unfold Linepart.value
    rw [usr]
    have uncut : (pt.rest { pt with usr := 32, trim := 0 }).cut = 0 := rfl
    have same : (pt.rest { pt with usr := 32, trim := 0 }).trim = pt.trim := rfl
    unfold Linepart.Ends at ends
    simp only [uncut, same, ne_eq, not_true, false_and, if_false, false_or, dropped, usr] at ends ⊢
    rw [if_neg (show ¬ (¬ pt.cut = 0 ∧ j = 0) by omega), show 32 + (j - 32) = j by omega]
    by_cases last : ¬ pt.trim = 0 ∧ j + 1 = pt.usr.toNat
    · have points := (ends last.1).2
      rw [if_pos ⟨last.1, by omega⟩, if_pos last, show 32 + (j - 32 - 1) = j - 1 by omega]
    · rw [if_neg fun here => last ⟨here.1, by omega⟩, if_neg last]

/-- The whole is changed as its first piece and then the rest. -/
theorem applyScaled_split (size : src.length = pt.usr.toNat) (long : 32 < pt.usr.toNat)
    (order : pt.usr.toNat ≤ pt.raw.toNat + 1)
    (ends : (pt.rest { pt with usr := 32, trim := 0 }).Ends ∨
      (scale.x = 0 ∧ scale.y = 0) ∧ (pt.rest { pt with usr := 32, trim := 0 }).raw.toNat < 2) :
    applyScaled (pt.rest { pt with usr := 32, trim := 0 }) (src.drop 32) scale (pos + 32)
        (changed dest scale (({ pt with usr := 32, trim := 0 } : Linepart).value (src.take 32)) pos 32) =
      applyScaled pt src scale pos dest := by
  obtain ⟨usr, raw⟩ := rest_long long order
  have whole : pt.Ends := by
    intro _
    rw [UInt16.le_iff_toNat_le, show (2 : UInt16).toNat = 2 from rfl]
    omega
  rw [applyScaled_eq size whole]
  have left : (src.drop 32).length = (pt.rest { pt with usr := 32, trim := 0 }).usr.toNat := by
    rw [List.length_drop, size, usr]
  by_cases both : (pt.rest { pt with usr := 32, trim := 0 }).Ends
  · rw [applyScaled_eq left both, usr, changed_append, show 32 + (pt.usr.toNat - 32) = pt.usr.toNat by omega]
    refine congrArg some (changed_congr fun j inside => ?_)
    exact value_split long order both inside
  · obtain ⟨⟨x, y⟩, short⟩ := ends.resolve_left both
    have cut : (pt.rest { pt with usr := 32, trim := 0 }).cut ≠ 0 ∨
        (pt.rest { pt with usr := 32, trim := 0 }).trim ≠ 0 := by
      by_contra none
      exact both fun cut => absurd cut none
    rw [applyScaled_short short cut, changed_zero x y, changed_zero x y]

omit [DecidableEq K] [CharZero K] in
/-- The condition is kept for what is left. -/
theorem Piecewise.rest (fine : Piecewise v pt) (long : 32 < pt.usr.toNat)
    (order : pt.usr.toNat ≤ pt.raw.toNat + 1) :
    Piecewise v (pt.rest { pt with usr := 32, trim := 0 }) ∧
      ((pt.rest { pt with usr := 32, trim := 0 }).Ends ∨ (v.factor.x = 0 ∧ v.factor.y = 0) ∧
        (pt.rest { pt with usr := 32, trim := 0 }).raw.toNat < 2) := by
  obtain ⟨usr, raw⟩ := rest_long long order
  have last := fine.last long
  have offset := fine.offset long
  have same : (pt.rest { pt with usr := 32, trim := 0 }).trim = pt.trim := rfl
  have uncut : (pt.rest { pt with usr := 32, trim := 0 }).cut = 0 := rfl
  have tail : (pt.rest { pt with usr := 32, trim := 0 }).tail = pt.tail := by
    unfold Linepart.tail
    omega
  have size : pt.tail = (pt.usr.toNat - 1) % 32 + 1 := rfl
  refine ⟨⟨?_, fun _ => offset, ?_⟩, ?_⟩
  · intro one two
    refine ⟨uncut, ?_⟩
    rw [same]
    obtain none | many | ⟨points, _⟩ | ⟨_, points | few⟩ := last
    · exact none
    · omega
    · omega
    · omega
    · omega
  · intro longer
    rw [same, tail, usr, raw]
    obtain none | many | ⟨points, enough⟩ | ⟨zero, points | few⟩ := last
    · exact .inl none
    · exact .inr (.inl many)
    · exact .inr (.inr (.inl ⟨points, by omega⟩))
    · exact .inr (.inr (.inr ⟨zero, .inl points⟩))
    · exact .inr (.inr (.inr ⟨zero, .inr (by omega)⟩))
  · by_cases none : pt.trim = 0
    · refine .inl fun cut => ?_
      rw [uncut, same, none] at cut
      simp at cut
    · by_cases enough : 2 ≤ pt.raw.toNat - 32 ∧ 2 ≤ pt.usr.toNat - 32
      · refine .inl fun _ => ?_
        rw [UInt16.le_iff_toNat_le, raw, usr]
        exact enough
      · rw [raw]
        obtain none' | many | ⟨points, _⟩ | ⟨zero, points | few⟩ := last
        · exact absurd none' none
        · omega
        · omega
        · exact .inr ⟨zero, by omega⟩
        · exact .inr ⟨zero, by omega⟩

/-- The first piece of a part with more points. -/
theorem applyLinear_first (size : src.length = pt.usr.toNat) (long : 32 < pt.usr.toNat)
    (order : pt.usr.toNat ≤ pt.raw.toNat + 1) :
    applyLinear { pt with usr := 32, trim := 0 } ((src.take 32).map log10) v pos dest =
      some (changed (addOffset v.offset pos dest 32) v.factor
        (({ pt with usr := 32, trim := 0 } : Linepart).value ((src.take 32).map log10)) pos 32) := by
  refine applyScaled_eq ?_ fun _ => ⟨?_, ?_⟩
  · rw [List.length_map, List.length_take]
    exact Nat.min_eq_left (by omega)
  · rw [UInt16.le_iff_toNat_le, show (2 : UInt16).toNat = 2 from rfl]
    simp only
    omega
  · exact Nat.le_of_ble_eq_true rfl

/-- The first round of the loop for a part with more points. -/
theorem applyLogLoop_long (size : src.length = pt.usr.toNat) (long : 32 < pt.usr.toNat)
    (order : pt.usr.toNat ≤ pt.raw.toNat + 1) (fuel : Nat) :
    applyLogLoop log10 v (fuel + 1) pt src pos dest =
      applyLogLoop log10 v fuel (pt.rest { pt with usr := 32, trim := 0 }) (src.drop 32) (pos + 32)
        (changed (addOffset v.offset pos dest 32) v.factor
          (({ pt with usr := 32, trim := 0 } : Linepart).value ((src.take 32).map log10)) pos 32) := by
  have some_ : pt.usr ≠ 0 := by
    intro none
    rw [none] at long
    exact absurd long (by decide)
  rw [applyLogLoop, if_neg some_]
  simp only [piece_long long, show (32 : UInt16).toNat = 32 from rfl]
  rw [logs_eq (by omega), Option.bind_some, applyLinear_first size long order, Option.bind_some]

/-- Nothing is left. -/
theorem applyLogLoop_empty (none : pt.usr = 0) (size : src.length = pt.usr.toNat)
    (single : pt.usr.toNat ≤ 1 → 2 ≤ pt.raw.toNat → pt.cut = 0 ∧ pt.trim = 0) (fuel : Nat) :
    applyLogLoop log10 v fuel pt src pos dest = some dest ∧
      applyLinear pt (src.map log10) v pos dest = some dest := by
  have zero : pt.usr.toNat = 0 := by rw [none]; rfl
  refine ⟨applyLogLoop_nil none fuel, ?_⟩
  rw [applyLinear, zero, addOffset]
  by_cases cut : pt.cut ≠ 0 ∨ pt.trim ≠ 0
  · apply applyScaled_short _ cut
    by_contra long
    obtain ⟨first, last⟩ := single (by omega) (by omega)
    exact cut.elim (absurd first) (absurd last)
  · rw [applyScaled_eq (by rw [List.length_map, size]) fun ends => absurd ends cut, zero]
    refine congrArg some (funext fun i => ?_)
    rw [changed, if_neg (by omega)]

/-- The loop does what the linear routine does. -/
theorem applyLogLoop_agrees {fuel : Nat} (steps : pt.usr.toNat ≤ fuel)
    (size : src.length = pt.usr.toNat) (order : pt.usr.toNat ≤ pt.raw.toNat + 1)
    (fine : Piecewise v pt) :
    ∃ points, applyLogLoop log10 v fuel pt src pos dest = some points ∧
      applyLinear pt (src.map log10) v pos dest = some points := by
  have mapped : (src.map log10).length = pt.usr.toNat := by rw [List.length_map, size]
  induction fuel generalizing pt src pos dest with
  | zero =>
      have none : pt.usr = 0 := UInt16.toNat_inj.mp (Nat.eq_zero_of_le_zero steps)
      exact ⟨dest, applyLogLoop_empty none size fine.single 0⟩
  | succ fuel ih =>
      by_cases none : pt.usr = 0
      · exact ⟨dest, applyLogLoop_empty none size fine.single (fuel + 1)⟩
      · have positive : pt.usr.toNat ≠ 0 := fun zero => none (UInt16.toNat_inj.mp zero)
        by_cases long : 32 < pt.usr.toNat
        · obtain ⟨usr, raw⟩ := rest_long long order
          obtain ⟨left, ends⟩ := fine.rest long order
          obtain ⟨x, y⟩ := fine.offset long
          rw [applyLogLoop_long size long order, addOffset_zero x y, applyLinear_scaled x y]
          have dropped : (src.drop 32).length = (pt.rest { pt with usr := 32, trim := 0 }).usr.toNat := by
            rw [List.length_drop, size, usr]
          obtain ⟨points, done, same⟩ := @ih (pt.rest { pt with usr := 32, trim := 0 }) (src.drop 32)
            (pos + 32) (changed dest v.factor
              (({ pt with usr := 32, trim := 0 } : Linepart).value ((src.take 32).map log10)) pos 32)
            (by omega) dropped (by omega) left (by rw [List.length_map, dropped])
          refine ⟨points, done, ?_⟩
          rw [applyLinear_scaled x y, List.map_drop, List.map_take,
            applyScaled_split mapped long order ends] at same
          exact same
        · have short : pt.usr.toNat ≤ 32 := Nat.le_of_not_lt long
          have nothing : (pt.rest pt).usr = 0 := UInt16.sub_self pt.usr
          obtain ⟨points, whole⟩ := @applyScaled_some _ _ pt (src.map log10) v.factor pos
            (addOffset v.offset pos dest pt.usr.toNat) _ _ mapped fine.single
          have linear : applyLinear pt (src.map log10) v pos dest = some points := whole
          refine ⟨points, ?_, linear⟩
          rw [applyLogLoop, if_neg none]
          simp only [piece_short short]
          rw [logs_eq (by omega), List.take_of_length_le (by omega), Option.bind_some, linear, Option.bind_some]
          exact applyLogLoop_nil nothing fuel

/-! ## Only these -/

/-- A part with one point and an end that is cut needs a second point. -/
theorem Agrees.single (same : Agrees v pt) (few : pt.usr.toNat ≤ 1) (two : 2 ≤ pt.raw.toNat) :
    pt.cut = 0 ∧ pt.trim = 0 := by
  obtain ⟨points, _, linear⟩ := same id (List.replicate pt.usr.toNat 0) (fun _ => ⟨0, 0⟩)
    List.length_replicate
  have long : ¬ pt.raw < 2 := by
    rw [UInt16.lt_iff_toNat_lt, show (2 : UInt16).toNat = 2 from rfl]
    omega
  have second : (List.replicate pt.usr.toNat (0 : K))[1]? = none :=
    List.getElem?_eq_none (by rw [List.length_replicate]; exact few)
  unfold applyLinear applyScaled cutPoint trimPoint at linear
  simp only [linepartReal_eq_zero, long, and_false, if_false, List.map_id, second] at linear
  by_cases first : pt.cut = 0
  · refine ⟨first, ?_⟩
    by_contra last
    have outside : lastValues (List.replicate pt.usr.toNat (0 : K)) pt.usr.toNat = none := by
      obtain zero | one := Nat.le_one_iff_eq_zero_or_eq_one.mp few
      · rw [zero]
        rfl
      · rw [one]
        rfl
    simp [first, last, outside] at linear
  · simp [first] at linear

omit [DecidableEq K] [CharZero K] in
/-- The values of a part whose points all have one value. -/
theorem value_replicate {c : K} (many : 2 ≤ pt.usr.toNat) {j : Nat} (inside : j < pt.usr.toNat) :
    pt.value (List.replicate pt.usr.toNat c) j = c := by
  have all {i : Nat} (inside : i < pt.usr.toNat) : (List.replicate pt.usr.toNat c).getD i 0 = c := by
    rw [List.getD_eq_getElem?_getD, List.getElem?_replicate, if_pos inside]
    rfl
  unfold Linepart.value
  rw [all (show 0 < pt.usr.toNat by omega), all (show 1 < pt.usr.toNat by omega), all inside,
    all (show j - 1 < pt.usr.toNat by omega), sub_self, mul_zero, mul_zero, add_zero, ite_self, ite_self]

/-- What the linear routine does with a part whose points all have one value. -/
theorem applyLinear_replicate {c : K} {points : Nat → Point K} (many : 2 ≤ pt.usr.toNat)
    (enough : 2 ≤ pt.raw.toNat) (done : applyLinear pt ((List.replicate pt.usr.toNat c).map id) v pos dest =
      some points) {j : Nat} (inside : j < pt.usr.toNat) :
    points (pos + j) = (addOffset v.offset pos dest pt.usr.toNat (pos + j)).plus v.factor c := by
  have ends : pt.Ends := fun _ => ⟨UInt16.le_iff_toNat_le.mpr enough, many⟩
  rw [List.map_id, applyLinear, applyScaled_eq List.length_replicate ends] at done
  cases done
  rw [changed, if_pos (by omega), Nat.add_sub_cancel_left, value_replicate many inside]

/-- The offset is not added to the first point of the part alone. -/
theorem Agrees.offset (same : Agrees v pt) (order : pt.usr.toNat ≤ pt.raw.toNat + 1)
    (long : 32 < pt.usr.toNat) : v.offset.x = 0 ∧ v.offset.y = 0 := by
  obtain ⟨points, pieces, linear⟩ := same id (List.replicate pt.usr.toNat 0) (fun _ => ⟨0, 0⟩)
    List.length_replicate
  have whole := applyLinear_replicate (by omega) (by omega) linear (show 0 < pt.usr.toNat by omega)
  obtain ⟨fuel, count⟩ := Nat.exists_eq_succ_of_ne_zero (show pt.usr.toNat ≠ 0 by omega)
  have first : points 0 = (addOffset v.offset 0 (fun _ => ⟨0, 0⟩) 32 0).plus v.factor 0 := by
    unfold applyLog at pieces
    rw [count, applyLogLoop_long (by rw [List.length_replicate, count]) long order] at pieces
    rw [applyLogLoop_frame pieces (by omega), changed, if_pos (by omega), List.map_id, List.take_replicate,
      ← count, Nat.min_eq_left (by omega)]
    congr 1
    exact @value_replicate _ _ { pt with usr := 32, trim := 0 } _ (Nat.le_of_ble_eq_true rfl) _
      (Nat.le_of_ble_eq_true rfl)
  rw [first, addOffset_first, addOffset_first] at whole
  unfold Point.plus at whole
  have differ : ((pt.usr.toNat : K) - 32) ≠ 0 := by
    intro zero
    have equal : (pt.usr.toNat : K) = ((32 : Nat) : K) := by
      rw [sub_eq_zero.mp zero]
      rfl
    rw [Nat.cast_injective equal] at long
    exact absurd long (Nat.lt_irrefl 32)
  have alone {o : K} (equal : 0 + ((32 : Nat) : K) * o + 0 = 0 + (pt.usr.toNat : K) * o + 0) : o = 0 := by
    have zero : ((pt.usr.toNat : K) - 32) * o = 0 := by
      have cast : ((32 : Nat) : K) = 32 := rfl
      rw [cast] at equal
      linear_combination -equal
    exact (mul_eq_zero.mp zero).resolve_left differ
  simp only [mul_zero, Point.mk.injEq] at whole
  exact ⟨alone whole.1, alone whole.2⟩

/-- In the last piece, a point that is cut alone is not changed. -/
theorem applyLogLoop_last {fuel : Nat} {points : Nat → Point K} (x : v.offset.x = 0)
    (y : v.offset.y = 0) (steps : pt.usr.toNat ≤ fuel) (size : src.length = pt.usr.toNat)
    (order : pt.usr.toNat ≤ pt.raw.toNat + 1) (some_ : 1 ≤ pt.usr.toNat) (trim : pt.trim ≠ 0)
    (uncut : 32 < pt.usr.toNat ∨ pt.cut = 0)
    (few : pt.tail = 1 ∨ pt.tail = 2 ∧ pt.raw.toNat < pt.usr.toNat)
    (done : applyLogLoop log10 v fuel pt src pos dest = some points) :
    (pt.tail = 2 ∨ pt.raw.toNat ≤ pt.usr.toNat) ∧
      points (pos + (pt.usr.toNat - 1)) = dest (pos + (pt.usr.toNat - 1)) := by
  induction fuel generalizing pt src pos dest with
  | zero => omega
  | succ fuel ih =>
      by_cases long : 32 < pt.usr.toNat
      · obtain ⟨usr, raw⟩ := rest_long long order
        have tail : (pt.rest { pt with usr := 32, trim := 0 }).tail = pt.tail := by
          unfold Linepart.tail
          omega
        rw [applyLogLoop_long size long order, addOffset_zero x y] at done
        have next := @ih (pt.rest { pt with usr := 32, trim := 0 }) (src.drop 32) (pos + 32) _ (by omega)
          (by rw [List.length_drop, size, usr]) (by omega) (by omega) trim (.inr rfl)
          (by rw [tail, raw, usr]; omega) done
        rw [tail, usr, raw] at next
        refine ⟨by omega, ?_⟩
        have place : pos + 32 + (pt.usr.toNat - 32 - 1) = pos + (pt.usr.toNat - 1) := by omega
        rw [place] at next
        rw [next.2, changed, if_neg (by omega)]
      · have first : pt.cut = 0 := uncut.resolve_left long
        have size_ : pt.tail = (pt.usr.toNat - 1) % 32 + 1 := rfl
        have nothing : (pt.rest pt).usr = 0 := UInt16.sub_self pt.usr
        have positive : pt.usr ≠ 0 := by
          intro none
          rw [none] at some_
          exact absurd some_ (by decide)
        rw [applyLogLoop, if_neg positive] at done
        simp only [piece_short (Nat.le_of_not_lt long)] at done
        rw [logs_eq (by omega), Option.bind_some, applyLinear_scaled x y] at done
        obtain ⟨dest', piece, done⟩ := Option.bind_eq_some_iff.mp done
        rw [applyLogLoop_nil nothing] at done
        cases done
        by_cases one : pt.raw.toNat < 2
        · rw [applyScaled_short one (.inr trim)] at piece
          cases piece
          exact ⟨by omega, rfl⟩
        · -- the value before the array is read
          exfalso
          have enough : ¬ pt.raw < 2 := by
            rw [UInt16.lt_iff_toNat_lt]
            exact one
          have outside (values : List K) : lastValues values pt.usr.toNat = none := by
            rw [show pt.usr.toNat = 1 by omega]
            rfl
          unfold applyScaled cutPoint trimPoint at piece
          simp [linepartReal_eq_zero, first, trim, enough, outside] at piece

/-- The last piece has the points that an end needs. -/
theorem Agrees.last (same : Agrees v pt) (order : pt.usr.toNat ≤ pt.raw.toNat + 1)
    (long : 32 < pt.usr.toNat) :
    pt.trim = 0 ∨ 3 ≤ pt.tail ∨ (pt.tail = 2 ∧ pt.usr.toNat ≤ pt.raw.toNat) ∨
      ((v.factor.x = 0 ∧ v.factor.y = 0) ∧ (pt.tail = 2 ∨ pt.raw.toNat ≤ pt.usr.toNat)) := by
  by_cases trim : pt.trim = 0
  · exact .inl trim
  · by_cases fine : 3 ≤ pt.tail ∨ pt.tail = 2 ∧ pt.usr.toNat ≤ pt.raw.toNat
    · exact .inr (fine.imp_right .inl)
    · have positive : 1 ≤ pt.tail := Nat.le_add_left 1 _
      obtain ⟨x, y⟩ := same.offset order long
      obtain ⟨points, pieces, linear⟩ := same id (List.replicate pt.usr.toNat 1) (fun _ => ⟨0, 0⟩)
        List.length_replicate
      obtain ⟨enough, kept⟩ := applyLogLoop_last x y (Nat.le_refl _) List.length_replicate order
        (by omega) trim (.inl long) (by omega) pieces
      have whole := applyLinear_replicate (by omega) (by omega) linear
        (show pt.usr.toNat - 1 < pt.usr.toNat by omega)
      rw [kept, addOffset_zero x y] at whole
      unfold Point.plus at whole
      simp only [mul_one, zero_add, Point.mk.injEq] at whole
      exact .inr (.inr (.inr ⟨⟨whole.1.symm, whole.2.symm⟩, enough⟩))

/-- `apply_log` changes the points as the linear routine does exactly for parts of one piece and
    for those without offset whose last piece has enough points. -/
theorem applyLog_agrees (v : ValueApply K) (pt : Linepart) (order : pt.usr.toNat ≤ pt.raw.toNat + 1) :
    Agrees v pt ↔ Piecewise v pt := by
  constructor
  · intro same
    exact ⟨same.single, same.offset order, same.last order⟩
  · intro fine log10 src dest size
    exact applyLogLoop_agrees (Nat.le_refl _) size order fine

/-- A part of 33 points with an offset. -/
theorem applyLog_agrees_offset :
    ¬ Agrees (⟨1, 1, ⟨1, 1⟩⟩ : ValueApply ℚ) ⟨33, 33, 0, 0⟩ := by
  intro same
  obtain ⟨x, _⟩ := same.offset (by decide) (by decide)
  simp [ValueApply.offset] at x

/-- A part of 40 points without an offset, which is cut at both ends. -/
theorem applyLog_agrees_ends :
    Agrees (⟨2, 0, ⟨1, 1⟩⟩ : ValueApply ℚ) ⟨40, 40, 5, 7⟩ := by
  refine (applyLog_agrees _ _ (by decide)).mpr ⟨?_, ?_, ?_⟩
  · decide
  · intro _
    simp [ValueApply.offset]
  · decide

end Mpt.Plot
