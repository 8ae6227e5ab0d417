import Mpt.Plot.Numeric

/-! # Numeric iterators replay their sequence

The sequence of each kind is told from the iterator as it was made.
-/

namespace Mpt.Plot

open Iteration

variable {F : Type u} {A : Arith F} {found : Found F}

/-- The values of a factor iterator. -/
def Factor.at_ (A : Arith F) (d : Factor F) : Nat → F
  | 0 => d.init
  | 1 => d.base
  | k + 2 => A.mul (Factor.at_ A d (k + 1)) d.fact

/-- The values in the rest of a text, and if it goes on with something else. -/
def items (A : Arith F) : (fuel : Nat) → List Char → List F × Bool
  | 0, _ => ([], false)
  | fuel + 1, text =>
      if text = [] ∨ (A.cdouble text).1 = 0 then
        ([], false)
      else if (A.cdouble text).1 < 0 ∨ A.isNaN (A.cdouble text).2 then
        ([], true)
      else
        let (rest, broken) := items A fuel (text.drop (A.cdouble text).1.toNat)
        ((A.cdouble text).2 :: rest, broken)

/-- All values of a text. -/
def Values.all (A : Arith F) (d : Values F) : List F × Bool :=
  let (rest, broken) := items A d.text.length (d.text.drop (A.cdouble d.text).1.toNat)
  ((A.cdouble d.text).2 :: rest, broken)

/-- The sequence of an iterator. -/
def Numeric.sequence (A : Arith F) : Numeric F → Sequence F
  | .linear d => ⟨d.elem, fun k => some (A.add d.base (A.mul (A.ofNat k) d.step)), false, true⟩
  | .factor d => ⟨d.elem, fun k => some (d.at_ A k), false, true⟩
  | .boundary d =>
      ⟨d.elem, fun k => some (if k = 0 then d.left else if k < d.elem - 1 then d.inter else d.right),
        false, true⟩
  | .values d => ⟨(d.all A).1.length, fun k => (d.all A).1[k]?, (d.all A).2, true⟩
  | .poly d => ⟨d.max, fun k => (d.point A k).map fun val => d.polynom A val, false, false⟩

/-- The condition for a call. -/
def Numeric.Fine (A : Arith F) : Numeric F → Kind → Prop
  | .boundary _, .clone => False
  | .values d, .advance => ∀ next, d.next = some next → next ≠ [] → 0 < (A.cdouble next).1 →
      A.isNaN (A.cdouble next).2 = false
  | .values d, .reset => A.isNaN (A.cdouble d.text).2 = false
  | .values d, .clone => d.next ≠ none
  | .poly d, .reset => d.val = none ∨ d.pos = 0
  | _, _ => True

/-- The next position, and how an advance ends. -/
theorem advance_count (q : Sequence F) (whole : q.broken = false) (k : Nat) :
    q.calls.advance k =
      if q.count ≤ k then (k, .failed) else (k + 1, if k + 1 = q.count then .last else .more) := by
  show (if k + 1 < q.count then _ else _ : Nat × Outcome) = _
  rw [whole]
  by_cases last : k + 1 = q.count
  · rw [if_neg (by omega), if_pos last, if_neg Bool.false_ne_true, if_neg (by omega), if_pos last]
  · by_cases less : k + 1 < q.count
    · rw [if_pos less, if_neg (by omega), if_neg last]
    · rw [if_neg less, if_neg last, if_pos (by omega)]

theorem outcome_count (last : Prop) [Decidable last] :
    outcome (.ok (if last then 0 else codeD)) = if last then .last else .more := by
  split <;> rfl

section Linear

/-- Only the position and the scratch value change. -/
def Linear.Rel (d₀ : Linear F) (it : Numeric F) (k : Nat) : Prop :=
  ∃ curr, it = .linear { d₀ with curr := curr, pos := k }

theorem Linear.conforms (A : Arith F) (found : Found F) (d₀ : Linear F) :
    Conforms (Numeric.calls A found) ((Numeric.linear d₀).sequence A) (Numeric.Fine A) d₀.Rel where
  value := by
    rintro it k ⟨curr, rfl⟩
    show Linear.Rel d₀ (.linear (Linear.value A _).1) k ∧ (Linear.value A _).2 = if k < d₀.elem then _ else _
    unfold Linear.value
    by_cases past : d₀.elem ≤ k
    · rw [if_pos past, if_neg (Nat.not_lt.mpr past)]
      exact ⟨⟨curr, rfl⟩, rfl⟩
    · rw [if_neg past, if_pos (Nat.not_le.mp past)]
      exact ⟨⟨_, rfl⟩, rfl⟩
  advance := by
    rintro it k ⟨curr, rfl⟩ _
    rw [advance_count _ rfl]
    show Linear.Rel d₀ (.linear (Linear.advance _).1) _ ∧ outcome (Linear.advance _).2 = _
    unfold Linear.advance
    by_cases past : d₀.elem ≤ k
    · have past' : ((Numeric.linear d₀).sequence A).count ≤ k := past
      rw [if_pos past, if_pos past']
      exact ⟨⟨curr, rfl⟩, rfl⟩
    · have past' : ¬ ((Numeric.linear d₀).sequence A).count ≤ k := past
      rw [if_neg past, if_neg past']
      exact ⟨⟨curr, rfl⟩, outcome_count _⟩
  reset := by
    rintro it k ⟨curr, rfl⟩ _
    exact ⟨curr, rfl⟩
  clone := by
    rintro it k ⟨curr, rfl⟩ _
    exact ⟨_, rfl, found.unset, rfl⟩

end Linear

section Factor

def Factor.Rel (A : Arith F) (d₀ : Factor F) (it : Numeric F) (k : Nat) : Prop :=
  it = .factor { d₀ with curr := d₀.at_ A k, pos := k }

theorem Factor.conforms (A : Arith F) (found : Found F) (d₀ : Factor F) :
    Conforms (Numeric.calls A found) ((Numeric.factor d₀).sequence A) (Numeric.Fine A) (d₀.Rel A) where
  value := by
    rintro it k rfl
    refine ⟨rfl, ?_⟩
    show (if d₀.elem ≤ k then none else some _) = if k < d₀.elem then _ else _
    by_cases past : d₀.elem ≤ k
    · rw [if_pos past, if_neg (Nat.not_lt.mpr past)]
    · rw [if_neg past, if_pos (Nat.not_le.mp past)]
      rfl
  advance := by
    rintro it k rfl _
    rw [advance_count _ rfl]
    show Factor.Rel A d₀ (.factor (Factor.advance A _).1) _ ∧ outcome (Factor.advance A _).2 = _
    unfold Factor.advance
    by_cases past : d₀.elem ≤ k
    · have past' : ((Numeric.factor d₀).sequence A).count ≤ k := past
      rw [if_pos past, if_pos past']
      exact ⟨rfl, rfl⟩
    · have past' : ¬ ((Numeric.factor d₀).sequence A).count ≤ k := past
      rw [if_neg past, if_neg past']
      refine ⟨?_, outcome_count _⟩
      cases k with
      | zero => rfl
      | succ k => rfl
  reset := by
    rintro it k rfl _
    rfl
  clone := by
    rintro it k rfl _
    exact ⟨_, rfl, rfl⟩

end Factor

section Boundary

def Boundary.Rel (d₀ : Boundary F) (it : Numeric F) (k : Nat) : Prop :=
  it = .boundary { d₀ with pos := k }

theorem Boundary.conforms (A : Arith F) (found : Found F) (d₀ : Boundary F) :
    Conforms (Numeric.calls A found) ((Numeric.boundary d₀).sequence A) (Numeric.Fine A) d₀.Rel where
  value := by
    rintro it k rfl
    refine ⟨rfl, ?_⟩
    show (if d₀.elem ≤ k then none else if k = 0 then some d₀.left
        else if k < d₀.elem - 1 then some d₀.inter else some d₀.right) =
      if k < d₀.elem then
        some (if k = 0 then d₀.left else if k < d₀.elem - 1 then d₀.inter else d₀.right) else none
    by_cases past : d₀.elem ≤ k
    · rw [if_pos past, if_neg (Nat.not_lt.mpr past)]
    · rw [if_neg past, if_pos (Nat.not_le.mp past)]
      split
      · rfl
      · split <;> rfl
  advance := by
    rintro it k rfl _
    rw [advance_count _ rfl]
    show Boundary.Rel d₀ (.boundary (Boundary.advance _).1) _ ∧ outcome (Boundary.advance _).2 = _
    unfold Boundary.advance
    by_cases past : d₀.elem ≤ k
    · have past' : ((Numeric.boundary d₀).sequence A).count ≤ k := past
      rw [if_pos past, if_pos past']
      exact ⟨rfl, rfl⟩
    · have past' : ¬ ((Numeric.boundary d₀).sequence A).count ≤ k := past
      rw [if_neg past, if_neg past']
      exact ⟨rfl, outcome_count _⟩
  reset := by
    rintro it k rfl _
    rfl
  clone := by
    rintro it k rfl fine
    exact fine.elim

end Boundary

section Poly

/-- What is kept as value is the one of the position. -/
def Poly.Rel (A : Arith F) (d₀ : Poly F) (it : Numeric F) (k : Nat) : Prop :=
  ∃ val, it = .poly { d₀ with pos := k, val := val } ∧
    ∀ c, val = some c → ((d₀.point A k).map fun val => d₀.polynom A val) = some c

theorem Poly.conforms (A : Arith F) (found : Found F) (d₀ : Poly F) :
    Conforms (Numeric.calls A found) ((Numeric.poly d₀).sequence A) (Numeric.Fine A) (d₀.Rel A) where
  value := by
    rintro it k ⟨val, rfl, kept⟩
    show Poly.Rel A d₀ (.poly (Poly.value A _).1) k ∧ (Poly.value A _).2 = if k < d₀.max then _ else _
    unfold Poly.value
    by_cases past : d₀.max ≤ k
    · have past' : ({ d₀ with pos := k, val := val } : Poly F).max ≤ k := past
      rw [if_pos past', if_neg (Nat.not_lt.mpr past)]
      exact ⟨⟨val, rfl, kept⟩, rfl⟩
    · have past' : ¬ ({ d₀ with pos := k, val := val } : Poly F).max ≤ k := past
      rw [if_neg past', if_pos (Nat.not_le.mp past)]
      cases val with
      | some c => exact ⟨⟨some c, rfl, kept⟩, (kept c rfl).symm⟩
      | none => exact ⟨⟨_, rfl, fun c same => same⟩, rfl⟩
  advance := by
    rintro it k ⟨val, rfl, kept⟩ _
    rw [advance_count _ rfl]
    show Poly.Rel A d₀ (.poly (Poly.advance _).1) _ ∧ outcome (Poly.advance _).2 = _
    unfold Poly.advance
    by_cases past : d₀.max ≤ k
    · have past' : ((Numeric.poly d₀).sequence A).count ≤ k := past
      have past'' : ({ d₀ with pos := k, val := val } : Poly F).max ≤ k := past
      rw [if_pos past'', if_pos past']
      exact ⟨⟨val, rfl, kept⟩, rfl⟩
    · have past' : ¬ ((Numeric.poly d₀).sequence A).count ≤ k := past
      have past'' : ¬ ({ d₀ with pos := k, val := val } : Poly F).max ≤ k := past
      rw [if_neg past'', if_neg past']
      exact ⟨⟨none, rfl, fun c same => nomatch same⟩, outcome_count _⟩
  reset := by
    rintro it k ⟨val, rfl, kept⟩ fine
    rcases fine with none_ | start
    · exact ⟨val, rfl, fun c same => nomatch none_.symm.trans same⟩
    · obtain rfl : k = 0 := start
      exact ⟨val, rfl, kept⟩
  clone := by
    rintro it k ⟨val, rfl, kept⟩ _
    rfl

end Poly

section Values

theorem items_end (A : Arith F) {fuel : Nat} {text : List Char}
    (ends : text = [] ∨ (A.cdouble text).1 = 0) : items A fuel text = ([], false) := by
  cases fuel with
  | zero => rfl
  | succ fuel => exact if_pos ends

/-- The text is at its end, or the current value and the rest of the text are the rest of
    the sequence. -/
def Values.Rel (A : Arith F) (d₀ : Values F) (it : Numeric F) (k : Nat) : Prop :=
  ∃ d : Values F, it = .values d ∧ d.text = d₀.text ∧
    (d.next = none ∧ k = (d₀.all A).1.length ∧ (d₀.all A).2 = false ∨
      ∃ next fuel, d.next = some next ∧ next.length ≤ fuel ∧
        (d₀.all A).1.drop k = d.curr :: (items A fuel next).1 ∧ (d₀.all A).2 = (items A fuel next).2)

/-- The start of the text. -/
theorem Values.rel_start {d d₀ : Values F} (text : d.text = d₀.text)
    (next : d.next = some (d₀.text.drop (A.cdouble d₀.text).1.toNat))
    (curr : d.curr = (A.cdouble d₀.text).2) : d₀.Rel A (.values d) 0 := by
  refine ⟨d, rfl, text, .inr ⟨_, d₀.text.length, next, ?_, ?_, rfl⟩⟩
  · rw [List.length_drop]
    exact Nat.sub_le _ _
  · rw [curr]
    rfl

theorem Values.conforms (A : Arith F) (found : Found F) {d₀ : Values F}
    (first : 0 < (A.cdouble d₀.text).1) :
    Conforms (Numeric.calls A found) ((Numeric.values d₀).sequence A) (Numeric.Fine A) (d₀.Rel A) where
  value := by
    rintro it k ⟨d, rfl, text, place⟩
    refine ⟨⟨d, rfl, text, place⟩, ?_⟩
    show (d.next.map fun _ => d.curr) = if k < (d₀.all A).1.length then (d₀.all A).1[k]? else none
    rcases place with ⟨end_, count, _⟩ | ⟨next, fuel, more, _, rest, _⟩
    · rw [end_, if_neg (by omega)]
      rfl
    · have here : (d₀.all A).1[k]? = some d.curr := by
        rw [← List.head?_drop, rest]
        rfl
      rw [more, if_pos (List.getElem?_eq_some_iff.mp here).1, here]
      rfl
  advance := by
    rintro it k ⟨d, rfl, text, place⟩ fine
    show Values.Rel A d₀ (.values (d.advance A).1) _ ∧ outcome (d.advance A).2 = _
    unfold Values.advance
    rcases place with ⟨end_, count, whole⟩ | ⟨next, fuel, more, size, rest, broken⟩
    · rw [advance_count _ whole]
      have past : ((Numeric.values d₀).sequence A).count ≤ k := Nat.le_of_eq count.symm
      rw [if_pos past, end_]
      exact ⟨⟨d, rfl, text, .inl ⟨end_, count, whole⟩⟩, rfl⟩
    · have count : (d₀.all A).1.length - k = (items A fuel next).1.length + 1 := by
        rw [← List.length_drop, rest]
        rfl
      rw [more]
      simp only
      by_cases ends : next = [] ∨ (A.cdouble next).1 = 0
      · rw [items_end A ends] at broken count
        rw [if_pos ends, advance_count _ broken]
        have last : k + 1 = ((Numeric.values d₀).sequence A).count := by
          show k + 1 = (d₀.all A).1.length
          simp only [List.length_nil] at count
          omega
        rw [if_neg (by omega), if_pos last]
        exact ⟨⟨_, rfl, text, .inl ⟨rfl, last, broken⟩⟩, rfl⟩
      · rw [if_neg ends]
        obtain ⟨some_, nonzero⟩ := not_or.mp ends
        cases fuel with
        | zero => exact absurd (List.eq_nil_of_length_eq_zero (Nat.le_zero.mp size)) some_
        | succ fuel =>
            by_cases negative : (A.cdouble next).1 < 0
            · have stuck : items A (fuel + 1) next = ([], true) := by
                unfold items
                rw [if_neg ends, if_pos (.inl negative)]
              have spec : ((Numeric.values d₀).sequence A).calls.advance k = (k, .failed) := by
                rw [stuck] at broken count
                show (if k + 1 < (d₀.all A).1.length then _ else if k + 1 = (d₀.all A).1.length then
                  if (d₀.all A).2 = true then _ else _ else _ : Nat × Outcome) = _
                simp only [List.length_nil] at count
                rw [if_neg (by omega), if_pos (by omega), broken, if_pos rfl]
              rw [if_neg (show ¬ 0 < (A.cdouble next).1 by omega), if_pos (.inl negative), spec]
              exact ⟨⟨_, rfl, text, .inr ⟨next, fuel + 1, rfl, size, rest, broken⟩⟩, rfl⟩
            · have positive : 0 < (A.cdouble next).1 := by omega
              have number := fine next more some_ positive
              have proper : ¬ ((A.cdouble next).1 < 0 ∨ A.isNaN (A.cdouble next).2 = true) := by
                rw [number]
                exact fun wrong => wrong.elim negative Bool.false_ne_true
              have goes : items A (fuel + 1) next =
                  ((A.cdouble next).2 :: (items A fuel (next.drop (A.cdouble next).1.toNat)).1,
                    (items A fuel (next.drop (A.cdouble next).1.toNat)).2) := by
                conv_lhs => unfold items
                rw [if_neg ends, if_neg proper]
              rw [goes] at rest broken count
              have less : k + 1 < (d₀.all A).1.length := by
                simp only [List.length_cons] at count
                omega
              have spec : ((Numeric.values d₀).sequence A).calls.advance k = (k + 1, .more) := if_pos less
              rw [if_pos positive, if_neg proper, spec]
              refine ⟨⟨_, rfl, text, .inr ⟨_, fuel, rfl, ?_, ?_, broken⟩⟩, rfl⟩
              · show (next.drop (A.cdouble next).1.toNat).length ≤ fuel
                rw [List.length_drop]
                omega
              · rw [← List.drop_drop, rest]
                rfl
  reset := by
    rintro it k ⟨d, rfl, text, _⟩ fine
    have number : A.isNaN (A.cdouble d.text).2 = false := fine
    rw [text] at number
    show Values.Rel A d₀ (.values (d.reset A)) 0
    unfold Values.reset
    rw [text]
    have proper : ¬ ((A.cdouble d₀.text).1 < 0 ∨ A.isNaN (A.cdouble d₀.text).2 = true) := by
      rw [number]
      exact fun wrong => wrong.elim (by omega) Bool.false_ne_true
    simp only
    rw [if_neg (show ¬ (A.cdouble d₀.text).1 = 0 by omega), if_pos first, if_neg proper]
    exact Values.rel_start rfl rfl rfl
  clone := by
    rintro it k ⟨d, rfl, text, place⟩ fine
    have made : iteratorValues A d.text =
        some ⟨d.text, some (d.text.drop (A.cdouble d.text).1.toNat), (A.cdouble d.text).2⟩ := by
      have positive : ¬ (A.cdouble d.text).1 ≤ 0 := by
        rw [text]
        omega
      exact if_neg positive
    have able : ((Numeric.values d₀).sequence A).cloneable = true := rfl
    rw [if_pos able]
    show ∃ c, ((d.clone A found.stray).map fun c => (Numeric.values c, false)) = some (c, false) ∧ _
    unfold Values.clone
    rw [made]
    refine ⟨_, rfl, _, rfl, text, ?_⟩
    rcases place with ⟨end_, _⟩ | ⟨next, fuel, more, size, rest, broken⟩
    · exact absurd end_ fine
    · exact .inr ⟨next, fuel, by rw [more]; rfl, size, rest, broken⟩

end Values

/-- In every run whose calls meet the condition, the iterator and all clones of it answer as
    positions in its sequence do. -/
theorem iterators_of_run (A : Arith F) (found : Found F) {it : Numeric F} (made : it.Made A found)
    (calls : List Call)
    (fine : (Numeric.calls A found).machine.Meets (Each (Numeric.Fine A)) [it] calls) :
    (Numeric.calls A found).machine.outputs [it] calls =
      (it.sequence A).calls.machine.outputs [0] calls := by
  cases made with
  | @linear len start end_ d made =>
      have start : d.pos = 0 := by
        unfold iteratorLinear at made
        split at made
        · cases made
        · cases made
          rfl
      exact (d.conforms A found).run ⟨d.curr, by rw [← start]⟩ calls fine
  | @range given d made =>
      have start : d.pos = 0 := by
        unfold iteratorRange at made
        split at made
        · cases made
          rfl
        · split at made
          · cases made
          · cases made
            rfl
      exact (d.conforms A found).run ⟨d.curr, by rw [← start]⟩ calls fine
  | factor given =>
      refine ((iteratorFactor A given).conforms A found).run ?_ calls fine
      cases given with
      | none => rfl
      | some parts => rfl
  | @boundary len left inter right d made =>
      have start : d.pos = 0 := by
        unfold iteratorBoundary at made
        split at made
        · cases made
        · cases made
          rfl
      refine (d.conforms A found).run ?_ calls fine
      show Numeric.boundary d = .boundary { d with pos := 0 }
      rw [← start]
  | @values text d made =>
      unfold iteratorValues at made
      simp only at made
      split at made
      · cases made
      · next positive =>
        cases made
        have first : 0 < (A.cdouble text).1 := Int.not_le.mp positive
        refine Conforms.run (Values.conforms A found first) ?_ calls fine
        exact Values.rel_start rfl rfl rfl
  | poly coeff grid =>
      exact ((iteratorPoly coeff grid).conforms A found).run ⟨none, rfl, fun c same => nomatch same⟩ calls
        fine

/-- Numbers with one digit; a blank text is no number. -/
def digits : Arith Int where
  add := (· + ·)
  sub := (· - ·)
  mul := (· * ·)
  div := (· / ·)
  less a b := a < b
  isNaN _ := false
  ofNat n := n
  toInt a := a
  const m _ := m
  cdouble
    | ' ' :: c :: _ => (2, c.toNat - 48)
    | c :: _ => (1, c.toNat - 48)
    | [] => (0, 0)

/-- A text with two numbers: read, cloned and replayed. -/
theorem values_sample :
    (Numeric.calls digits ⟨0, []⟩).machine.outputs [.values ⟨['4', ' ', '2'], some [' ', '2'], 4⟩]
        [⟨0, .value, true⟩, ⟨0, .advance, true⟩, ⟨0, .clone, true⟩, ⟨0, .reset, true⟩, ⟨1, .value, true⟩,
          ⟨0, .value, true⟩] =
      ((Numeric.values (F := Int) ⟨['4', ' ', '2'], some [' ', '2'], 4⟩).sequence digits).calls.machine.outputs
        [0] [⟨0, .value, true⟩, ⟨0, .advance, true⟩, ⟨0, .clone, true⟩, ⟨0, .reset, true⟩, ⟨1, .value, true⟩,
          ⟨0, .value, true⟩] := by
  have made : iteratorValues digits ['4', ' ', '2'] = some ⟨['4', ' ', '2'], some [' ', '2'], 4⟩ := rfl
  refine iterators_of_run digits ⟨0, []⟩ (.values made) _ ?_
  refine ⟨?_, ?_, ?_, ?_, ?_, ?_, trivial⟩
  · exact fun s here => .inr (by cases here; trivial)
  · exact fun s here => .inr (by cases here; exact fun _ _ _ _ => rfl)
  · exact fun s here => .inr (by cases here; exact fun wrong => nomatch wrong)
  · exact fun s here => .inr (by cases here; exact rfl)
  · exact fun s here => .inr (by cases here; trivial)
  · exact fun s here => .inr (by cases here; trivial)

/-- A polynom tells the value of another position after a reset; the position of a boundary
    clone is stored behind it; the clone of values that are at their end has a value. -/
theorem iterators_wrong :
    (Numeric.calls digits ⟨0, []⟩).machine.outputs [.poly (iteratorPoly [] (some [7, 8]))]
          [⟨0, .advance, true⟩, ⟨0, .value, true⟩, ⟨0, .reset, true⟩, ⟨0, .value, true⟩] ≠
        ((Numeric.poly (iteratorPoly [] (some [7, 8]))).sequence digits).calls.machine.outputs [0]
          [⟨0, .advance, true⟩, ⟨0, .value, true⟩, ⟨0, .reset, true⟩, ⟨0, .value, true⟩] ∧
      (Numeric.calls digits ⟨0, []⟩).machine.outputs [.boundary ⟨1, 2, 3, 4, 0⟩] [⟨0, .clone, true⟩] ≠
        ((Numeric.boundary ⟨1, 2, 3, 4, 0⟩).sequence digits).calls.machine.outputs [0] [⟨0, .clone, true⟩] ∧
      (Numeric.calls digits ⟨0, []⟩).machine.outputs [.values ⟨['4'], some [], 4⟩]
          [⟨0, .advance, true⟩, ⟨0, .clone, true⟩, ⟨1, .value, true⟩] ≠
        ((Numeric.values (F := Int) ⟨['4'], some [], 4⟩).sequence digits).calls.machine.outputs [0]
          [⟨0, .advance, true⟩, ⟨0, .clone, true⟩, ⟨1, .value, true⟩] := by
  decide

end Mpt.Plot
