import Mpt.Run

/-! # Runs with inputs that leave no trace

Inputs that change nothing but the representation of a state can be left out of a run:
the answers to the others are the same.
-/

namespace Mpt.Machine

variable {State : Type u} {Input : Type v} {Output : Type w} {M : Machine State Input Output}
  {hidden : Input → Bool}

/-- The answers to the inputs that are not hidden. -/
def visible (M : Machine State Input Output) (hidden : Input → Bool) (s : State) :
    List Input → List Output
  | [] => []
  | i :: is =>
      if hidden i then
        M.visible hidden (M.step s i).1 is
      else
        (M.step s i).2 :: M.visible hidden (M.step s i).1 is

/-- A relation that hidden inputs keep on one side and all others keep on both, with the
    same answer. -/
theorem visible_eq {R : State → State → Prop}
    (quiet : ∀ s t i, R s t → hidden i = true → R s (M.step t i).1)
    (keep : ∀ s t i, R s t → hidden i = false →
      (M.step t i).2 = (M.step s i).2 ∧ R (M.step s i).1 (M.step t i).1)
    {s t : State} (start : R s t) (is : List Input) :
    M.visible hidden t is = M.outputs s (is.filter fun i => !hidden i) := by
  induction is generalizing s t with
  | nil => rfl
  | cons i is ih =>
      cases kind : hidden i with
      | true =>
          rw [visible, if_pos kind, List.filter_cons_of_neg (by simp [kind])]
          exact ih (quiet s t i start kind)
      | false =>
          obtain ⟨same, next⟩ := keep s t i start kind
          rw [visible, if_neg (by simp [kind]), List.filter_cons_of_pos (by simp [kind]), outputs,
            same, ih next]

end Mpt.Machine
