import Mathlib.Tactic.Common
import Mathlib.Tactic.Ring

/-! # Runs of a machine

A machine answers each input and moves to the next state.  Properties of whole
runs are reduced here, once, to properties of one step: invariants, and the
simulation of one machine by another on the same inputs.  A run can be asked to
meet a condition on the state before every step.
-/

namespace Mpt

/-- A deterministic machine with an answer to every input. -/
structure Machine (State : Type u) (Input : Type v) (Output : Type w) where
  step : State → Input → State × Output

namespace Machine

variable {State : Type u} {Input : Type v} {Output : Type w}

/-- The state reached by a sequence of inputs. -/
def after (M : Machine State Input Output) (s : State) : List Input → State
  | [] => s
  | i :: is => M.after (M.step s i).1 is

/-- The answers along a sequence of inputs. -/
def outputs (M : Machine State Input Output) (s : State) : List Input → List Output
  | [] => []
  | i :: is => (M.step s i).2 :: M.outputs (M.step s i).1 is

/-- `ok` holds of the state before every step of the run. -/
def Meets (M : Machine State Input Output) (ok : State → Input → Prop) (s : State) :
    List Input → Prop
  | [] => True
  | i :: is => ok s i ∧ M.Meets ok (M.step s i).1 is

variable {M : Machine State Input Output}

theorem after_append (s : State) (is js : List Input) :
    M.after s (is ++ js) = M.after (M.after s is) js := by
  induction is generalizing s with
  | nil => rfl
  | cons i is ih => exact ih (M.step s i).1

theorem meets_append {ok : State → Input → Prop} (s : State) (is js : List Input) :
    M.Meets ok s (is ++ js) ↔ M.Meets ok s is ∧ M.Meets ok (M.after s is) js := by
  induction is generalizing s with
  | nil => simp [Meets, after]
  | cons i is ih => simp only [List.cons_append, Meets, after, ih, and_assoc]

theorem Meets.mono {ok ok' : State → Input → Prop} (weaker : ∀ s i, ok s i → ok' s i) {s : State}
    {is : List Input} (meets : M.Meets ok s is) : M.Meets ok' s is := by
  induction is generalizing s with
  | nil => trivial
  | cons i is ih => exact ⟨weaker s i meets.1, ih meets.2⟩

/-- An invariant of every step that meets the condition holds after every run
    that meets it. -/
theorem invariant {ok : State → Input → Prop} {P : State → Prop}
    (keep : ∀ s i, P s → ok s i → P (M.step s i).1) {s : State} {is : List Input}
    (start : P s) (meets : M.Meets ok s is) : P (M.after s is) := by
  induction is generalizing s with
  | nil => exact start
  | cons i is ih => exact ih (keep s i start meets.1) meets.2

/-- Where every step keeps the invariant exactly when it meets the condition, the
    runs that meet it are those with the invariant in every state reached. -/
theorem meets_iff {ok : State → Input → Prop} {P : State → Prop}
    (keep : ∀ s i, P s → (P (M.step s i).1 ↔ ok s i)) {s : State} (start : P s)
    (is : List Input) : M.Meets ok s is ↔ ∀ js, js <+: is → P (M.after s js) := by
  constructor
  · rintro meets js ⟨ks, rfl⟩
    rw [meets_append] at meets
    exact invariant (fun s i h ok => (keep s i h).mpr ok) start meets.1
  · intro always
    induction is generalizing s with
    | nil => trivial
    | cons i is ih =>
        have first : P (M.step s i).1 := always [i] (by simp)
        refine ⟨(keep s i start).mp first, ih first ?_⟩
        intro js part
        exact always (i :: js) (by simpa using part)

theorem invariant_always {P : State → Prop} (keep : ∀ s i, P s → P (M.step s i).1)
    {s : State} (start : P s) (is : List Input) : P (M.after s is) := by
  induction is generalizing s with
  | nil => exact start
  | cons i is ih => exact ih (keep s i start)

/-- Steps that preserve a relation and give the same answer make whole runs do
    the same. -/
theorem simulation {Other : Type x} {N : Machine Other Input Output} {ok : State → Input → Prop}
    {rel : State → Other → Prop}
    (keep : ∀ s t i, rel s t → ok s i →
      (M.step s i).2 = (N.step t i).2 ∧ rel (M.step s i).1 (N.step t i).1)
    {s : State} {t : Other} {is : List Input} (start : rel s t) (meets : M.Meets ok s is) :
    M.outputs s is = N.outputs t is ∧ rel (M.after s is) (N.after t is) := by
  induction is generalizing s t with
  | nil => exact ⟨rfl, start⟩
  | cons i is ih =>
      obtain ⟨same, next⟩ := keep s t i start meets.1
      obtain ⟨rest, final⟩ := ih next meets.2
      exact ⟨by simp only [outputs, same, rest], final⟩

/-- Two conditions that agree wherever an invariant holds are met by the same runs,
    when the steps that meet them keep the invariant. -/
theorem meets_congr {ok ok' : State → Input → Prop} {P : State → Prop}
    (same : ∀ s i, P s → (ok s i ↔ ok' s i))
    (keep : ∀ s i, P s → ok s i → P (M.step s i).1) {s : State} (start : P s)
    (is : List Input) : M.Meets ok s is ↔ M.Meets ok' s is := by
  induction is generalizing s with
  | nil => exact Iff.rfl
  | cons i is ih =>
      simp only [Meets]
      rw [← same s i start]
      apply and_congr_right
      intro first
      exact ih (keep s i start first)

end Machine

end Mpt
