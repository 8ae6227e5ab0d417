import Mpt.Plot.Linepart
import Mathlib.Order.Defs.LinearOrder

/-! # Splitting a line into its visible parts

`mpt_linepart_linear` looks at no more than 65535 points.  A part takes the visible points with
the one before and the one behind them, and the next part begins at the last of the points that
are not visible.
-/

namespace Mpt.Plot

section
variable {α : Type u} [LinearOrder α] (code : (outside limit inside : α) → UInt16)

/-- `UINT16_MAX` -/
def partMax : Nat := 65535

/-- A point in the range. -/
def inside (min max x : α) : Bool := decide (min ≤ x ∧ x ≤ max)

/-- A point before or above the range, with the limit that it is beyond. -/
def beyond (min max x : α) : Option α :=
  if x < min then some min else if max < x then some max else none

/-- The loop over the visible points, `prev` being the one before: their number and, where
    there is a point that is not visible, the code for it and what is behind it. -/
def countVisible (min max : α) : (prev : α) → (usr : Nat) → List α → Nat × Option (UInt16 × List α)
  | _, usr, [] => (usr, none)
  | prev, usr, x :: points =>
      match beyond min max x with
      | some limit => (usr, some (code x limit prev, points))
      | none => countVisible min max x (usr + 1) points

/-- The loop over the points that are not visible. -/
def countTrailing (min max : α) : (raw : Nat) → List α → Nat
  | raw, [] => raw + 1
  | raw, x :: points =>
      if (beyond min max x).isSome then countTrailing min max (raw + 1) points else raw

/-- `mpt_linepart_linear` behind a first line that is cut or not.  The counts are no more than
    `UINT16_MAX`. -/
def linearFrom (min max prev : α) (usr : Nat) (cut : UInt16) (points : List α) : Linepart :=
  match countVisible code min max prev usr points with
  | (usr, none) => ⟨.ofNat usr, .ofNat usr, cut, 0⟩
  | (usr, some (trim, points)) =>
      let raw := countTrailing min max usr points
      if usr = 0 then ⟨.ofNat raw, 0, cut, 0⟩ else ⟨.ofNat raw, .ofNat (usr + 1), cut, trim⟩

/-- `mpt_linepart_linear` -/
def linear (range : Option (α × α)) (points : List α) : Linepart :=
  let points := points.take partMax
  match range with
  | none => ⟨.ofNat points.length, .ofNat points.length, 0, 0⟩
  | some (min, max) =>
      match points with
      | [] => ⟨0, 0, 0, 0⟩
      | [x] => linearFrom code min max x 0 0 [x]
      | x :: y :: points =>
          match beyond min max x with
          | none => linearFrom code min max x 0 0 (x :: y :: points)
          | some limit =>
              -- partial first
              if min ≤ y ∧ y ≤ max then linearFrom code min max y 2 (code x limit y) points
              else linearFrom code min max x 0 0 (x :: y :: points)

/-- The parts of all points; none where there are more than `fuel`. -/
def splitParts (range : Option (α × α)) : (fuel : Nat) → List α → Option (List Linepart)
  | _, [] => some []
  | 0, _ :: _ => none
  | fuel + 1, x :: points =>
      let part := linear code range (x :: points)
      (splitParts range fuel ((x :: points).drop part.raw.toNat)).map (part :: ·)

end

/-- The parts with the position of their first point. -/
def windows : (pos : Nat) → List Linepart → List (Nat × Linepart)
  | _, [] => []
  | pos, part :: parts => (pos, part) :: windows (pos + part.raw.toNat) parts

/-- A point of the inner part of a window. -/
def InnerPoint (i : Nat) (w : Nat × Linepart) : Prop :=
  w.1 ≤ i ∧ i < w.1 + w.2.usr.toNat ∧ (w.2.cut ≠ 0 → i ≠ w.1) ∧
    (w.2.trim ≠ 0 → i + 1 ≠ w.1 + w.2.usr.toNat)

instance (i : Nat) (w : Nat × Linepart) : Decidable (InnerPoint i w) :=
  inferInstanceAs (Decidable (_ ∧ _ ∧ _ ∧ _))

/-- What a call tells about the points that it sees, `view` of them: the `usr` visible ones and
    those around them are in the window, the `raw` first are passed over. -/
structure Stretch (vis : Nat → Prop) (view : Nat) (part : Linepart) : Prop where
  some_ : 1 ≤ part.raw.toNat
  raw_le : part.raw.toNat ≤ view
  usr_le : part.usr.toNat ≤ view
  window : ∀ i, i < part.raw.toNat → vis i → i < part.usr.toNat
  shared : ∀ i, part.raw.toNat ≤ i → i < part.usr.toNat → ¬ vis i
  pair : ∀ i, i < part.raw.toNat → i + 1 < view → vis i ∨ vis (i + 1) → i + 1 < part.usr.toNat
  cut : part.cut ≠ 0 → ¬ vis 0
  trim : part.trim ≠ 0 → ¬ vis (part.usr.toNat - 1)
  rising : part.raw.toNat = view ∨ ¬ vis part.raw.toNat ∧ vis (part.raw.toNat + 1) ∧ part.raw.toNat + 1 < view
  first : ∀ i, 1 ≤ i → i < part.raw.toNat → i + 1 < view → vis i ∨ ¬ vis (i + 1)

/-- What the loops count: the visible points end at `u`, `k` more points are not visible. -/
structure Counted (vis : Nat → Prop) (view u k : Nat) : Prop where
  u_le : u ≤ view
  visible : ∀ i, 1 ≤ i → i < u → vis i
  partial_ : u ≠ 0 → ¬ vis 0 → 2 ≤ u
  hidden : ∀ i, u ≤ i → i ≤ u + k → u < view → i < view ∧ ¬ vis i
  ended : u < view → u + k + 1 = view ∨ u + k + 1 < view ∧ vis (u + k + 1)
  first : u = 0 → ¬ vis 0 ∧ (k = 0 → view = 1)

theorem Counted.stretch {vis : Nat → Prop} {view u k : Nat} (c : Counted vis view u k) (some_ : 1 ≤ view) {part : Linepart}
    (raw : part.raw.toNat = if u = view then view else if u + k + 1 = view then view else u + k)
    (usr : part.usr.toNat = if u = view then view else if u = 0 then 0 else u + 1)
    (cut : part.cut ≠ 0 → ¬ vis 0) (trim : part.trim ≠ 0 → u ≠ view ∧ u ≠ 0) : Stretch vis view part := by
  obtain ⟨u_le, visible, partial_, hidden, ended, first⟩ := c
  by_cases whole : u = view
  · rw [if_pos whole] at raw usr
    refine ⟨by omega, by omega, by omega, ?_, ?_, ?_, cut, ?_, .inl raw, ?_⟩
    · omega
    · omega
    · omega
    · intro trimmed
      exact absurd whole (trim trimmed).1
    · intro i pos less _
      exact .inl (visible i pos (by omega))
  · rw [if_neg whole] at raw usr
    have under : u < view := by omega
    have here := hidden u (Nat.le_refl u) (Nat.le_add_right u k) under
    have behind (i : Nat) (from_ : u ≤ i) (upto : i ≤ u + k) : ¬ vis i := (hidden i from_ upto under).2
    have bound := (hidden (u + k) (Nat.le_add_right u k) (Nat.le_refl _) under).1
    have raw_ge : u + k ≤ part.raw.toNat := by
      rw [raw]
      split <;> omega
    have raw_lt : part.raw.toNat ≤ u + k + 1 := by
      rw [raw]
      split <;> omega
    have raw_view : part.raw.toNat = u + k + 1 → u + k + 1 = view := by
      rw [raw]
      split <;> omega
    have usr_eq : u ≠ 0 → part.usr.toNat = u + 1 := fun some_ => by rw [usr, if_neg some_]
    have usr_zero : u = 0 → part.usr.toNat = 0 := fun none => by rw [usr, if_pos none]
    refine ⟨?_, by omega, ?_, ?_, ?_, ?_, cut, ?_, ?_, ?_⟩
    · by_cases none : u = 0
      · by_cases alone : k = 0
        · have := (first none).2 alone
          rw [raw, if_pos (by omega)]
          exact some_
        · omega
      · omega
    · by_cases none : u = 0
      · rw [usr_zero none]
        omega
      · rw [usr_eq none]
        omega
    · intro i less seen
      by_cases before : i < u
      · rw [usr_eq (by omega)]
        omega
      · exact absurd seen (behind i (by omega) (by omega))
    · intro i from_ less
      by_cases none : u = 0
      · rw [usr_zero none] at less
        cases less
      · rw [usr_eq none] at less
        exact behind i (by omega) (by omega)
    · intro i less inside seen
      by_cases before : i < u
      · rw [usr_eq (by omega)]
        omega
      · obtain seen | seen := seen
        · exact absurd seen (behind i (by omega) (by omega))
        · by_cases last : i + 1 ≤ u + k
          · exact absurd seen (behind (i + 1) (by omega) last)
          · omega
    · intro trimmed
      have some_ := (trim trimmed).2
      rw [usr_eq some_]
      exact here.2
    · obtain all | ⟨more, next⟩ := ended under
      · left
        rw [raw, if_pos all]
      · right
        have count : part.raw.toNat = u + k := by rw [raw, if_neg (by omega)]
        rw [count]
        exact ⟨behind _ (Nat.le_add_right u k) (Nat.le_refl _), next, more⟩
    · intro i pos less inside
      by_cases before : i < u
      · exact .inl (visible i pos before)
      · exact .inr (behind (i + 1) (by omega) (by omega))

variable {α : Type u} [LinearOrder α] {code : (outside limit inside : α) → UInt16} {min max : α}

theorem beyond_none {x : α} : beyond min max x = none ↔ inside min max x = true := by
  unfold beyond inside
  by_cases low : x < min
  · simp [low, not_le.mpr low]
  · by_cases high : max < x
    · simp [low, high, not_le.mpr high]
    · simp [low, high, not_lt.mp low, not_lt.mp high]

/-- The visible points in front. -/
theorem countVisible_eq (prev : α) (usr : Nat) (points : List α) :
    ∃ u, (∀ i x, i < u → points[i]? = some x → inside min max x = true) ∧
      (u = points.length ∧ countVisible code min max prev usr points = (usr + u, none) ∨
        ∃ x trim, points[u]? = some x ∧ inside min max x = false ∧
          countVisible code min max prev usr points = (usr + u, some (trim, points.drop (u + 1)))) := by
  induction points generalizing prev usr with
  | nil => exact ⟨0, by simp, .inl ⟨rfl, rfl⟩⟩
  | cons x points ih =>
      unfold countVisible
      cases seen : beyond min max x with
      | some limit =>
          refine ⟨0, by simp, .inr ⟨x, code x limit prev, rfl, ?_, rfl⟩⟩
          by_contra visible
          rw [beyond_none.mpr (by simpa using visible)] at seen
          cases seen
      | none =>
          obtain ⟨u, visible, ending⟩ := ih x (usr + 1)
          refine ⟨u + 1, ?_, ?_⟩
          · intro i y less found
            cases i with
            | zero =>
                cases found
                exact beyond_none.mp seen
            | succ i => exact visible i y (Nat.lt_of_succ_lt_succ less) found
          · obtain ⟨all, count⟩ | ⟨y, trim, found, hidden, count⟩ := ending
            · refine .inl ⟨congrArg Nat.succ all, ?_⟩
              simp only [count]
              congr 1
              omega
            · refine .inr ⟨y, trim, found, hidden, ?_⟩
              simp only [count]
              congr 1
              omega

/-- The points that are not visible in front. -/
theorem countTrailing_eq (raw : Nat) (points : List α) :
    ∃ k, (∀ i x, i < k → points[i]? = some x → inside min max x = false) ∧
      (k = points.length ∧ countTrailing min max raw points = raw + k + 1 ∨
        ∃ x, points[k]? = some x ∧ inside min max x = true ∧
          countTrailing min max raw points = raw + k) := by
  induction points generalizing raw with
  | nil => exact ⟨0, by simp, .inl ⟨rfl, rfl⟩⟩
  | cons x points ih =>
      unfold countTrailing
      cases seen : beyond min max x with
      | none => exact ⟨0, by simp, .inr ⟨x, rfl, beyond_none.mp seen, rfl⟩⟩
      | some limit =>
          have hidden : inside min max x = false := by
            by_contra visible
            rw [beyond_none.mpr (by simpa using visible)] at seen
            cases seen
          obtain ⟨k, others, ending⟩ := ih (raw + 1)
          refine ⟨k + 1, ?_, ?_⟩
          · intro i y less found
            cases i with
            | zero =>
                cases found
                exact hidden
            | succ i => exact others i y (Nat.lt_of_succ_lt_succ less) found
          · simp only [Option.isSome_some, if_true]
            obtain ⟨all, count⟩ | ⟨y, found, visible, count⟩ := ending
            · refine .inl ⟨congrArg Nat.succ all, ?_⟩
              rw [count]
              omega
            · refine .inr ⟨y, found, visible, ?_⟩
              rw [count]
              omega

/-- A point of a list that is visible. -/
def Visible {α : Type u} (ins : α → Bool) (points : List α) (i : Nat) : Prop :=
  ∃ x, points[i]? = some x ∧ ins x = true

omit [LinearOrder α] in
theorem visible_behind {ins : α → Bool} {head points : List α} {i : Nat} :
    Visible ins (head ++ points) (head.length + i) ↔ Visible ins points i := by
  unfold Visible
  rw [List.getElem?_append_right (Nat.le_add_right _ _), Nat.add_sub_cancel_left]

omit [LinearOrder α] in
theorem not_visible {ins : α → Bool} {points : List α} {i : Nat} {x : α}
    (found : points[i]? = some x) (hidden : ins x = false) : ¬ Visible ins points i := by
  rintro ⟨y, same, visible⟩
  rw [found] at same
  cases same
  rw [hidden] at visible
  cases visible

theorem toNat_count {n : Nat} (small : n ≤ partMax) : (UInt16.ofNat n).toNat = n := by
  rw [UInt16.toNat_ofNat']
  unfold partMax at small
  omega

/-- The points in front of the first that is not visible, but for one that a first line begins
    with. -/
theorem visible_front {head points : List α} {u : Nat}
    (start : head = [] ∨ ∃ x y, head = [x, y] ∧ inside min max y = true)
    (front : ∀ i x, i < u → points[i]? = some x → inside min max x = true)
    (within : u ≤ points.length) {i : Nat} (less : i < head.length + u) (later : 1 ≤ i ∨ head = []) :
    Visible (inside min max) (head ++ points) i := by
  by_cases behind : head.length ≤ i
  · obtain ⟨j, rfl⟩ := Nat.exists_eq_add_of_le behind
    have inner : j < points.length := by omega
    rw [visible_behind]
    exact ⟨points[j], List.getElem?_eq_getElem inner,
      front j _ (by omega) (List.getElem?_eq_getElem inner)⟩
  · obtain rfl | ⟨x, y, rfl, second⟩ := start
    · exact absurd (Nat.zero_le i) behind
    · have pos : 1 ≤ i := later.resolve_right (List.cons_ne_nil _ _)
      have one : i = 1 := by
        simp only [List.length_cons, List.length_nil] at behind
        omega
      rw [one]
      exact ⟨y, rfl, second⟩

/-- What the second loop counts behind a point that is not visible. -/
theorem countTrailing_counted {head points : List α} {u : Nat} {x : α}
    (found : points[u]? = some x) (hidden : inside min max x = false) :
    ∃ k, (∀ i, head.length + u ≤ i → i ≤ head.length + u + k → i < (head ++ points).length ∧
        ¬ Visible (inside min max) (head ++ points) i) ∧
      (head.length + u + k + 1 = (head ++ points).length ∨
        head.length + u + k + 1 < (head ++ points).length ∧
          Visible (inside min max) (head ++ points) (head.length + u + k + 1)) ∧
      countTrailing min max (head.length + u) (points.drop (u + 1)) =
        if head.length + u + k + 1 = (head ++ points).length then (head ++ points).length
        else head.length + u + k := by
  have size : (head ++ points).length = head.length + points.length := List.length_append
  obtain ⟨k, others, rest⟩ := @countTrailing_eq _ _ min max (head.length + u) (points.drop (u + 1))
  have inner : u < points.length := (List.getElem?_eq_some_iff.mp found).1
  have left : (points.drop (u + 1)).length = points.length - (u + 1) := List.length_drop
  have k_le : k ≤ points.length - (u + 1) := by
    obtain ⟨all, _⟩ | ⟨y, next, _⟩ := rest
    · omega
    · have := (List.getElem?_eq_some_iff.mp next).1
      omega
  have outside (i : Nat) (less : i ≤ k) :
      ¬ Visible (inside min max) (head ++ points) (head.length + u + i) := by
    rw [Nat.add_assoc, visible_behind]
    cases i with
    | zero => exact not_visible found hidden
    | succ i =>
        have inner : i < (points.drop (u + 1)).length := by omega
        have at_ := List.getElem?_eq_getElem inner
        have there := at_
        rw [List.getElem?_drop, Nat.add_assoc, Nat.add_comm 1 i] at there
        exact not_visible there (others i _ (by omega) at_)
  refine ⟨k, ?_, ?_, ?_⟩
  · intro i from_ upto
    obtain ⟨j, rfl⟩ := Nat.exists_eq_add_of_le from_
    exact ⟨by omega, outside j (by omega)⟩
  · obtain ⟨all, _⟩ | ⟨y, there, visible, _⟩ := rest
    · exact .inl (by omega)
    · have less := (List.getElem?_eq_some_iff.mp there).1
      refine .inr ⟨by omega, ?_⟩
      rw [List.getElem?_drop] at there
      rw [Nat.add_assoc, Nat.add_assoc, visible_behind]
      exact ⟨y, by rw [← there]; congr 1; omega, visible⟩
  · obtain ⟨all, count⟩ | ⟨y, there, _, count⟩ := rest
    · rw [if_pos (by omega), count]
      omega
    · have less := (List.getElem?_eq_some_iff.mp there).1
      rw [if_neg (by omega), count]

/-- The loops behind a first line that is cut or not. -/
theorem linearFrom_stretch (prev : α) {head points : List α} {cut : UInt16}
    (small : (head ++ points).length ≤ partMax)
    (start : head = [] ∧ points ≠ [] ∧ cut = 0 ∧
        (∀ x y rest, points = x :: y :: rest → inside min max x = false → inside min max y = false) ∨
      ∃ x y, head = [x, y] ∧ inside min max x = false ∧ inside min max y = true) :
    Stretch (Visible (inside min max) (head ++ points)) (head ++ points).length
      (linearFrom code min max prev head.length cut points) := by
  have size : (head ++ points).length = head.length + points.length := List.length_append
  have some_ : 1 ≤ (head ++ points).length := by
    obtain ⟨rfl, some_, _⟩ | ⟨x, y, rfl, _⟩ := start
    · exact List.length_pos_iff.mpr some_
    · rw [size]
      exact Nat.le_trans (Nat.succ_le_succ (Nat.zero_le 1)) (Nat.le_add_right 2 _)
  have cut_first : cut ≠ 0 → ¬ Visible (inside min max) (head ++ points) 0 := by
    intro marked
    obtain ⟨_, _, none, _⟩ | ⟨x, y, rfl, hidden, _⟩ := start
    · exact absurd none marked
    · exact not_visible rfl hidden
  have begin_ : head = [] ∨ ∃ x y, head = [x, y] ∧ inside min max y = true :=
    start.imp And.left fun ⟨x, y, eq, _, second⟩ => ⟨x, y, eq, second⟩
  obtain ⟨u, front, ending⟩ := @countVisible_eq _ _ code min max prev head.length points
  have u_le : u ≤ points.length := by
    obtain ⟨all, _⟩ | ⟨x, _, found, _⟩ := ending
    · exact Nat.le_of_eq all
    · exact Nat.le_of_lt (List.getElem?_eq_some_iff.mp found).1
  have visible (i : Nat) (pos : 1 ≤ i) (less : i < head.length + u) :
      Visible (inside min max) (head ++ points) i :=
    visible_front begin_ front u_le less (.inl pos)
  have partial_ : head.length + u ≠ 0 → ¬ Visible (inside min max) (head ++ points) 0 →
      2 ≤ head.length + u := by
    intro positive hidden
    obtain ⟨rfl, _⟩ | ⟨x, y, rfl, _⟩ := start
    · exact absurd (visible_front (.inl rfl) front u_le (by omega) (.inr rfl)) hidden
    · exact Nat.le_add_right 2 u
  unfold linearFrom
  obtain ⟨all, count⟩ | ⟨x, trim, found, hidden, count⟩ := ending
  · simp only [count]
    refine Counted.stretch (u := head.length + u) (k := 0) ⟨by omega, visible, partial_, ?_, ?_, ?_⟩
      some_ ?_ ?_ cut_first ?_
    · omega
    · omega
    · omega
    · rw [toNat_count (by omega), if_pos (by omega)]
      omega
    · rw [toNat_count (by omega), if_pos (by omega)]
      omega
    · intro marked
      exact absurd rfl marked
  · obtain ⟨k, outside, next, raw⟩ := @countTrailing_counted _ _ min max head _ _ _ found hidden
    have inner : u < points.length := (List.getElem?_eq_some_iff.mp found).1
    have counted : Counted (Visible (inside min max) (head ++ points)) (head ++ points).length
        (head.length + u) k := by
      refine ⟨by omega, visible, partial_, fun i from_ upto _ => outside i from_ upto,
        fun _ => next, ?_⟩
      intro none
      have zero : head.length = 0 ∧ u = 0 := by omega
      refine ⟨(outside 0 (by omega) (Nat.zero_le _)).2, ?_⟩
      intro alone
      obtain ⟨rfl, _, _, hides⟩ | ⟨x, y, rfl, _⟩ := start
      · obtain all | ⟨more, second⟩ := next
        · omega
        · exfalso
          obtain ⟨y, at_, shown⟩ := second
          rw [none, alone] at at_
          rw [zero.2] at found
          cases points with
          | nil => cases found
          | cons x' points =>
              cases points with
              | nil => cases at_
              | cons y' points =>
                  cases found
                  cases at_
                  rw [hides _ _ _ rfl hidden] at shown
                  cases shown
      · exact absurd zero.1 (Nat.succ_ne_zero 1)
    have raw_small : countTrailing min max (head.length + u) (points.drop (u + 1)) ≤ partMax := by
      rw [raw]
      split <;> omega
    have under : head.length + u ≠ (head ++ points).length := by omega
    simp only [count]
    by_cases none : head.length + u = 0
    · rw [if_pos none]
      refine counted.stretch some_ ?_ ?_ cut_first fun marked => absurd rfl marked
      · rw [toNat_count raw_small, raw, if_neg under]
      · rw [if_neg under, if_pos none]
        rfl
    · rw [if_neg none]
      refine counted.stretch some_ ?_ ?_ cut_first fun _ => ⟨under, none⟩
      · rw [toNat_count raw_small, raw, if_neg under]
      · rw [toNat_count (by omega), if_neg under, if_neg none]

/-- A point in the range, which can be missing. -/
def inRange (range : Option (α × α)) (x : α) : Bool :=
  match range with
  | none => true
  | some (min, max) => inside min max x

/-- A call of `mpt_linepart_linear`. -/
theorem linear_stretch (range : Option (α × α)) {points : List α} (some_ : points ≠ []) :
    Stretch (Visible (inRange range) (points.take partMax)) (points.take partMax).length
      (linear code range points) := by
  have small : (points.take partMax).length ≤ partMax := List.length_take_le _ _
  have taken : points.take partMax ≠ [] := by
    cases points with
    | nil => exact absurd rfl some_
    | cons x points => exact List.cons_ne_nil _ _
  unfold linear
  generalize points.take partMax = view at *
  cases range with
  | none =>
      have count := toNat_count small
      have all (i : Nat) (inside : i < view.length) : Visible (inRange none) view i :=
        ⟨view[i], List.getElem?_eq_getElem inside, rfl⟩
      refine ⟨?_, ?_, ?_, ?_, ?_, ?_, fun marked => absurd rfl marked, fun marked => absurd rfl marked,
        .inl count, ?_⟩
      · rw [count]
        exact List.length_pos_iff.mpr taken
      · rw [count]
      · rw [count]
      · intro i less _
        exact less
      · intro i from_ less
        exact absurd less (Nat.not_lt.mpr from_)
      · intro i _ less _
        rwa [count]
      · intro i _ _ less
        exact .inl (all i (Nat.lt_of_succ_lt less))
  | some limits =>
      obtain ⟨min, max⟩ := limits
      have whole (x : α) (hides : ∀ x y rest, view = x :: y :: rest → inside min max x = false →
          inside min max y = false) :
          Stretch (Visible (inside min max) view) view.length (linearFrom code min max x 0 0 view) :=
        @linearFrom_stretch _ _ code min max x [] view 0 small (.inl ⟨rfl, taken, rfl, hides⟩)
      match view with
      | [] => exact absurd rfl taken
      | [x] => exact whole x fun _ _ _ same => by cases same
      | x :: y :: rest =>
          simp only
          cases seen : beyond min max x with
          | none =>
              apply whole
              rintro _ _ _ ⟨⟩ hidden
              rw [beyond_none.mp seen] at hidden
              cases hidden
          | some limit =>
              have hidden : inside min max x = false := by
                by_contra visible
                rw [beyond_none.mpr (by simpa using visible)] at seen
                cases seen
              by_cases second : min ≤ y ∧ y ≤ max
              · simp only [second]
                exact @linearFrom_stretch _ _ code min max y [x, y] rest _ small
                  (.inr ⟨x, y, rfl, hidden, decide_eq_true second⟩)
              · simp only [second, if_false]
                apply whole
                rintro _ _ _ ⟨⟩ _
                exact decide_eq_false second

/-! ## The whole list -/

/-- The number of points before the last one of those that are not visible before a visible one. -/
def rise {α : Type u} (ins : α → Bool) : List α → Nat
  | [] => 0
  | [_] => 1
  | x :: y :: points => if !ins x && ins y then 0 else rise ins (y :: points) + 1

/-- The same behind the first point. -/
def stretch {α : Type u} (ins : α → Bool) : List α → Nat
  | [] => 0
  | _ :: points => rise ins points + 1

/-- Where the list is divided at the limit of 65535 points, neither the point before nor the one
    behind is visible. -/
def Kept {α : Type u} (ins : α → Bool) : (fuel : Nat) → List α → Prop
  | 0, _ => True
  | fuel + 1, points =>
      points.length ≤ partMax ∨
        (stretch ins (points.take partMax) = partMax →
          ¬ Visible ins points (partMax - 1) ∧ ¬ Visible ins points partMax) ∧
        Kept ins fuel (points.drop (stretch ins (points.take partMax)))

/-- The parts cover the points from a position on, and each visible one is an inner point of one
    window. -/
structure Covers {α : Type u} (ins : α → Bool) (points : List α) (pos : Nat) (parts : List Linepart) :
    Prop where
  sum : pos + (parts.map fun part => part.raw.toNat).sum = points.length
  bound : ∀ w ∈ windows pos parts, w.1 + w.2.usr.toNat ≤ points.length
  once : ∀ i, pos ≤ i → Visible ins points i →
    (windows pos parts).countP (fun w => InnerPoint i w) = 1

/-- Neighbours of which one is visible are in one window. -/
def Together {α : Type u} (ins : α → Bool) (points : List α) (pos : Nat) (parts : List Linepart) :
    Prop :=
  ∀ i, pos ≤ i → i + 1 < points.length → Visible ins points i ∨ Visible ins points (i + 1) →
    ∃ w ∈ windows pos parts, w.1 ≤ i ∧ i + 1 < w.1 + w.2.usr.toNat

omit [LinearOrder α] in
theorem visible_cons {ins : α → Bool} {x : α} {points : List α} {i : Nat} :
    Visible ins (x :: points) (i + 1) ↔ Visible ins points i := Iff.rfl

omit [LinearOrder α] in
theorem visible_first {ins : α → Bool} {x : α} {points : List α} :
    Visible ins (x :: points) 0 ↔ ins x = true := by
  simp [Visible]

omit [LinearOrder α] in
theorem rise_eq {ins : α → Bool} {points : List α} {m : Nat} (inside : m ≤ points.length)
    (before : ∀ i, i < m → i + 1 < points.length → Visible ins points i ∨ ¬ Visible ins points (i + 1))
    (rising : m = points.length ∨ ¬ Visible ins points m ∧ Visible ins points (m + 1)) :
    rise ins points = m := by
  induction points generalizing m with
  | nil => exact (Nat.le_zero.mp inside).symm
  | cons x points ih =>
      cases points with
      | nil =>
          obtain all | ⟨_, y, found, _⟩ := rising
          · exact all.symm
          · cases found
      | cons y points =>
          unfold rise
          cases m with
          | zero =>
              obtain all | ⟨hidden, visible⟩ := rising
              · cases all
              · rw [visible_first] at hidden
                rw [visible_cons, visible_first] at visible
                rw [if_pos (by simp [hidden, visible])]
          | succ m =>
              have first := before 0 (Nat.succ_pos m) (Nat.succ_lt_succ (Nat.succ_pos _))
              rw [visible_first, visible_cons, visible_first] at first
              rw [if_neg]
              · refine congrArg Nat.succ (ih (Nat.le_of_succ_le_succ inside) ?_ ?_)
                · intro i less next
                  exact before (i + 1) (Nat.succ_lt_succ less) (Nat.succ_lt_succ next)
                · exact rising.imp_left Nat.succ.inj
              · intro both
                simp only [Bool.and_eq_true, Bool.not_eq_true'] at both
                obtain shown | hidden := first
                · rw [shown] at both
                  cases both.1
                · exact hidden both.2

omit [LinearOrder α] in
theorem Stretch.raw_eq {ins : α → Bool} {view : List α} {part : Linepart}
    (st : Stretch (Visible ins view) view.length part) : part.raw.toNat = stretch ins view := by
  cases view with
  | nil =>
      have := st.some_
      have := st.raw_le
      simp only [List.length_nil] at this
      omega
  | cons x view =>
      obtain ⟨m, count⟩ := Nat.exists_eq_add_of_le' st.some_
      rw [count]
      refine congrArg Nat.succ (Eq.symm (rise_eq ?_ ?_ ?_))
      · have := st.raw_le
        rw [List.length_cons] at this
        omega
      · intro i less inside
        exact st.first (i + 1) (Nat.le_add_left 1 i) (by omega) (Nat.succ_lt_succ inside)
      · obtain all | ⟨hidden, visible, _⟩ := st.rising
        · left
          rw [List.length_cons] at all
          omega
        · rw [count] at hidden visible
          exact .inr ⟨hidden, visible⟩

omit [LinearOrder α] in
theorem kept_short {ins : α → Bool} {points : List α} (short : points.length ≤ partMax) (fuel : Nat) :
    Kept ins fuel points := by
  cases fuel with
  | zero => trivial
  | succ fuel => exact .inl short

theorem windows_from {pos : Nat} {parts : List Linepart} {w : Nat × Linepart}
    (mem : w ∈ windows pos parts) : pos ≤ w.1 := by
  induction parts generalizing pos with
  | nil => cases mem
  | cons part parts ih =>
      rw [windows, List.mem_cons] at mem
      obtain rfl | mem := mem
      · exact Nat.le_refl _
      · exact Nat.le_trans (Nat.le_add_right _ _) (ih mem)

omit [LinearOrder α] in
/-- The points of the list from a position on, as a call sees them. -/
theorem visible_view {ins : α → Bool} {points : List α} {pos i : Nat} :
    Visible ins ((points.drop pos).take partMax) i ↔ i < partMax ∧ Visible ins points (pos + i) := by
  unfold Visible
  by_cases less : i < partMax
  · rw [List.getElem?_take_of_lt less, List.getElem?_drop]
    exact (and_iff_right less).symm
  · rw [List.getElem?_take_eq_none (Nat.le_of_not_lt less)]
    simp [less]

theorem splitParts_done (range : Option (α × α)) {points : List α} {pos : Nat}
    (done : points.drop pos = []) (inside : pos ≤ points.length) (fuel : Nat) :
    ∃ parts, splitParts code range fuel (points.drop pos) = some parts ∧
      Covers (inRange range) points pos parts ∧
      (Together (inRange range) points pos parts ↔ Kept (inRange range) fuel (points.drop pos)) := by
  have size : (points.drop pos).length = points.length - pos := List.length_drop
  rw [done, List.length_nil] at size
  have all : pos = points.length := by omega
  refine ⟨[], ?_, ⟨all, ?_, ?_⟩, ?_⟩
  · rw [done]
    cases fuel <;> rfl
  · intro w mem
    cases mem
  · rintro i from_ ⟨x, found, _⟩
    have := (List.getElem?_eq_some_iff.mp found).1
    omega
  · refine iff_of_true ?_ ?_
    · intro i from_ less
      omega
    · rw [done]
      exact kept_short (Nat.zero_le _) fuel

section
variable {ins : α → Bool} {points : List α} {pos n : Nat} {part : Linepart} {parts : List Linepart}

omit [LinearOrder α]

/-- One more part in front. -/
theorem Covers.cons (st : Stretch (Visible ins ((points.drop pos).take partMax)) n part)
    (small : n ≤ partMax) (rest : pos + n ≤ points.length)
    (covers : Covers ins points (pos + part.raw.toNat) parts) : Covers ins points pos (part :: parts) := by
  have usr_le := st.usr_le
  have hidden {i : Nat} (less : i < partMax) (out : ¬ Visible ins ((points.drop pos).take partMax) i) :
      ¬ Visible ins points (pos + i) := fun seen => out (visible_view.mpr ⟨less, seen⟩)
  refine ⟨?_, ?_, ?_⟩
  · rw [List.map_cons, List.sum_cons, ← Nat.add_assoc]
    exact covers.sum
  · intro w mem
    rw [windows, List.mem_cons] at mem
    obtain rfl | mem := mem
    · exact Nat.le_trans (Nat.add_le_add_left usr_le pos) rest
    · exact covers.bound w mem
  · intro i from_ seen
    obtain ⟨j, rfl⟩ := Nat.exists_eq_add_of_le from_
    rw [windows, List.countP_cons]
    by_cases own : j < part.raw.toNat
    · have less : j < partMax := Nat.lt_of_lt_of_le own (Nat.le_trans st.raw_le small)
      have used := st.window j own (visible_view.mpr ⟨less, seen⟩)
      have inner : InnerPoint (pos + j) (pos, part) := by
        refine ⟨Nat.le_add_right pos j, Nat.add_lt_add_left used pos, ?_, ?_⟩
        · intro cut same
          have first : j = 0 := by
            simp only at same
            omega
          rw [first] at seen
          exact hidden (by decide) (st.cut cut) seen
        · intro trim same
          have last : part.usr.toNat - 1 = j := by
            simp only at same
            omega
          have out := st.trim trim
          rw [last] at out
          exact hidden less out seen
      have others : (windows (pos + part.raw.toNat) parts).countP (fun w => InnerPoint (pos + j) w) = 0 := by
        rw [List.countP_eq_zero]
        intro w mem inner
        have from_ := windows_from mem
        have := (of_decide_eq_true inner).1
        omega
      rw [others, if_pos (decide_eq_true inner)]
    · have outer : ¬ InnerPoint (pos + j) (pos, part) := by
        rintro ⟨_, used, _⟩
        have used : j < part.usr.toNat := by
          simp only at used
          omega
        exact hidden (by omega) (st.shared j (Nat.le_of_not_lt own) used) seen
      rw [if_neg (by simpa using outer), covers.once (pos + j) (by omega) seen]

/-- The pairs that the part in front adds. -/
theorem together_cons (st : Stretch (Visible ins ((points.drop pos).take partMax)) n part)
    (small : n ≤ partMax) (rest : pos + n ≤ points.length)
    (whole : n = partMax ∨ pos + n = points.length) :
    Together ins points pos (part :: parts) ↔
      (part.raw.toNat = partMax → pos + partMax < points.length →
        ¬ Visible ins points (pos + (partMax - 1)) ∧ ¬ Visible ins points (pos + partMax)) ∧
      Together ins points (pos + part.raw.toNat) parts := by
  have usr_le := st.usr_le
  have raw_le := st.raw_le
  have some_ := st.some_
  constructor
  · intro all
    constructor
    · intro cut more
      by_contra seen
      obtain ⟨w, mem, before, behind⟩ := all (pos + (partMax - 1)) (Nat.le_add_right _ _)
        (by unfold partMax at *; omega) (by
          rw [show pos + (partMax - 1) + 1 = pos + partMax from rfl]
          exact Classical.or_iff_not_imp_left.mpr fun first => by
            by_contra second
            exact seen ⟨first, second⟩)
      rw [windows, List.mem_cons] at mem
      obtain rfl | mem := mem
      · simp only at behind
        unfold partMax at *
        omega
      · have := windows_from mem
        unfold partMax at *
        omega
    · intro i from_ less seen
      obtain ⟨w, mem, before, behind⟩ := all i (by omega) less seen
      rw [windows, List.mem_cons] at mem
      obtain rfl | mem := mem
      · exfalso
        obtain ⟨j, rfl⟩ := Nat.exists_eq_add_of_le before
        simp only at behind from_ seen
        obtain seen | seen := seen
        · exact st.shared j (by omega) (by omega) (visible_view.mpr ⟨by omega, seen⟩)
        · exact st.shared (j + 1) (by omega) (by omega) (visible_view.mpr ⟨by omega, seen⟩)
      · exact ⟨w, mem, before, behind⟩
  · rintro ⟨cut, others⟩ i from_ less seen
    obtain ⟨j, rfl⟩ := Nat.exists_eq_add_of_le from_
    by_cases own : j < part.raw.toNat
    · by_cases next : j + 1 < n
      · refine ⟨(pos, part), List.mem_cons_self, Nat.le_add_right pos j, ?_⟩
        have := st.pair j own next (seen.imp (fun seen => visible_view.mpr ⟨by omega, seen⟩)
          fun seen => visible_view.mpr ⟨by omega, seen⟩)
        simp only
        omega
      · -- the last point that is seen is the last of the part
        exfalso
        have limit : n = partMax := whole.resolve_right (by omega)
        have last : j = partMax - 1 := by omega
        have hidden := cut (by omega) (by omega)
        rw [last] at seen
        have place : pos + (partMax - 1) + 1 = pos + partMax := rfl
        rw [place] at seen
        exact seen.elim hidden.1 hidden.2
    · obtain ⟨w, mem, found⟩ := others (pos + j) (by omega) less seen
      exact ⟨w, List.mem_cons_of_mem _ mem, found⟩

end

/-- The parts from a position on. -/
theorem splitParts_from (range : Option (α × α)) (points : List α) (fuel : Nat) {pos : Nat}
    (inside : pos ≤ points.length) (enough : points.length - pos ≤ fuel) :
    ∃ parts, splitParts code range fuel (points.drop pos) = some parts ∧
      Covers (inRange range) points pos parts ∧
      (Together (inRange range) points pos parts ↔ Kept (inRange range) fuel (points.drop pos)) := by
  have size : (points.drop pos).length = points.length - pos := List.length_drop
  induction fuel generalizing pos with
  | zero => exact splitParts_done range (List.eq_nil_of_length_eq_zero (by omega)) inside 0
  | succ fuel ih =>
      by_cases done : points.drop pos = []
      · exact splitParts_done range done inside (fuel + 1)
      · have some_ : 0 < (points.drop pos).length := List.length_pos_iff.mpr done
        have st := @linear_stretch _ _ code range _ done
        have raw := st.raw_eq
        generalize call : linear code range (points.drop pos) = part at st raw
        obtain ⟨n, view, small, rest, whole⟩ : ∃ n, ((points.drop pos).take partMax).length = n ∧
            n ≤ partMax ∧ pos + n ≤ points.length ∧ (n = partMax ∨ pos + n = points.length) := by
          refine ⟨_, rfl, ?_⟩
          rw [List.length_take, size]
          omega
        rw [view] at st
        have raw_le := st.raw_le
        have positive := st.some_
        obtain ⟨parts, split, covers, together⟩ := @ih (pos + part.raw.toNat) (by omega) (by omega)
          List.length_drop
        refine ⟨part :: parts, ?_, covers.cons st small rest, ?_⟩
        · obtain ⟨x, others, list⟩ := List.exists_cons_of_ne_nil done
          rw [← List.drop_drop] at split
          rw [list] at call split ⊢
          simp only [splitParts, call, split, Option.map_some]
        · rw [together_cons st small rest whole, together, Kept, ← raw, List.drop_drop]
          by_cases short : (points.drop pos).length ≤ partMax
          · simp only [short, true_or, iff_true]
            refine ⟨fun _ more => by omega, kept_short ?_ fuel⟩
            rw [List.length_drop]
            omega
          · simp only [short, false_or]
            refine and_congr_left fun _ => imp_congr_right fun _ => ?_
            have more : pos + partMax < points.length := by omega
            have place (i : Nat) : Visible (inRange range) (points.drop pos) i ↔
                Visible (inRange range) points (pos + i) := by
              unfold Visible
              rw [List.getElem?_drop]
            rw [place, place]
            exact ⟨fun hidden => hidden more, fun hidden _ => hidden⟩

/-- In every list the calls end and the parts cover it. -/
theorem splitParts_covers (code : (outside limit inside : α) → UInt16) (range : Option (α × α))
    (points : List α) : ∃ parts, splitParts code range points.length points = some parts ∧
      Covers (inRange range) points 0 parts ∧
      (Together (inRange range) points 0 parts ↔ Kept (inRange range) points.length points) := by
  obtain ⟨parts, split, covers, together⟩ := @splitParts_from _ _ code range points points.length 0
    (Nat.zero_le _) (Nat.le_refl _)
  rw [List.drop_zero] at split together
  exact ⟨parts, split, covers, together⟩

theorem kept_of_together {code : (outside limit inside : α) → UInt16} {range : Option (α × α)}
    {points : List α} {parts : List Linepart}
    (split : splitParts code range points.length points = some parts)
    (pairs : Together (inRange range) points 0 parts) : Kept (inRange range) points.length points := by
  obtain ⟨parts', split', _, together⟩ := splitParts_covers code range points
  rw [split] at split'
  cases split'
  exact together.mp pairs

/-- The calls over a whole list end, their parts cover it and every visible point is an inner
    point of one window.  Neighbours are together exactly when none that is visible is at a
    place where the list is divided for its length. -/
theorem splitParts_windows (code : (outside limit inside : α) → UInt16) (range : Option (α × α))
    (points : List α) :
    (∃ parts, splitParts code range points.length points = some parts ∧
        Covers (inRange range) points 0 parts ∧ Together (inRange range) points 0 parts) ↔
      Kept (inRange range) points.length points := by
  constructor
  · rintro ⟨parts, split, _, pairs⟩
    exact kept_of_together split pairs
  · intro kept
    obtain ⟨parts, split, covers, together⟩ := splitParts_covers code range points
    exact ⟨parts, split, covers, together.mpr kept⟩

theorem rise_replicate {α : Type u} {ins : α → Bool} {x : α} (visible : ins x = true) (n : Nat) :
    rise ins (List.replicate n x) = n := by
  induction n with
  | zero => rfl
  | succ n ih =>
      cases n with
      | zero => rfl
      | succ n =>
          rw [List.replicate_succ, List.replicate_succ, rise, if_neg (by simp [visible])]
          rw [List.replicate_succ] at ih
          rw [ih]

/-- Of more than 65535 visible points, two neighbours are not together. -/
theorem splitParts_long (code : (outside limit inside : α) → UInt16) {range : Option (α × α)} {x : α}
    (visible : inRange range x = true) {n : Nat} (long : partMax < n) :
    ¬ ∃ parts, splitParts code range (List.replicate n x).length (List.replicate n x) = some parts ∧
      Covers (inRange range) (List.replicate n x) 0 parts ∧
      Together (inRange range) (List.replicate n x) 0 parts := by
  rintro ⟨parts, split, _, pairs⟩
  have all {i : Nat} (inside : i < n) : Visible (inRange range) (List.replicate n x) i :=
    ⟨x, by rw [List.getElem?_replicate, if_pos inside], visible⟩
  have kept := kept_of_together split pairs
  obtain ⟨m, rfl⟩ : ∃ m, n = m + 1 := Nat.exists_eq_add_of_lt (Nat.zero_lt_of_lt long) |>.imp fun m eq => by omega
  rw [List.length_replicate] at kept
  obtain short | ⟨ends, _⟩ := kept
  · rw [List.length_replicate] at short
    omega
  · have view : stretch (inRange range) ((List.replicate (m + 1) x).take partMax) = partMax := by
      rw [List.take_replicate, Nat.min_eq_left (Nat.le_of_lt long)]
      obtain ⟨k, size⟩ : ∃ k, partMax = k + 1 := ⟨65534, rfl⟩
      rw [size, List.replicate_succ, stretch, rise_replicate visible]
    exact (ends view).2 (all long)

/-- 65536 points in the range. -/
theorem splitParts_divides :
    ∃ points : List Int, points.length = 65536 ∧
      ¬ ∃ parts, splitParts (fun _ _ _ => 0) (some (0, 1)) points.length points = some parts ∧
        Covers (inRange (some (0, 1))) points 0 parts ∧
        Together (inRange (some (0, 1))) points 0 parts :=
  ⟨List.replicate 65536 0, List.length_replicate, splitParts_long _ rfl (Nat.lt_succ_self 65535)⟩

end Mpt.Plot
