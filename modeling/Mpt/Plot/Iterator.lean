import Mpt.Run
import Mathlib.Data.List.Forall2

/-! # Iterators

An implementation of an iterator is compared with a position in a sequence.  Clones are
made at any time, so that a run has any number of iterators; each call names one of them.
-/

namespace Mpt.Iteration

/-- How an advance ends. -/
inductive Outcome where
  | more
  | last
  | failed
  deriving Repr, DecidableEq

/-- The calls of an iterator, on the state `S` of an implementation. -/
structure Calls (S : Type u) (F : Type v) where
  value : S → S × Option F
  advance : S → S × Outcome
  reset : S → S
  /-- the clone, if one can be made, and if memory outside of it is written -/
  clone : S → Option (S × Bool)

/-- A sequence; one that is broken can not be left behind its last element. -/
structure Sequence (F : Type v) where
  count : Nat
  elem : Nat → Option F
  broken : Bool
  cloneable : Bool

namespace Sequence

variable {F : Type v}

/-- The calls on a position. -/
def calls (q : Sequence F) : Calls Nat F where
  value k := (k, if k < q.count then q.elem k else none)
  advance k :=
    if k + 1 < q.count then (k + 1, .more)
    else if k + 1 = q.count then
      if q.broken then (k, .failed) else (k + 1, .last)
    else
      (k, .failed)
  reset _ := 0
  clone k := if q.cloneable then some (k, false) else none

end Sequence

inductive Kind where
  | value
  | advance
  | reset
  | clone
  deriving Repr, DecidableEq

/-- A call of one of the iterators; memory for a clone may be refused. -/
structure Call where
  at_ : Nat
  kind : Kind
  granted : Bool

/-- What a caller sees. -/
inductive Answer (F : Type v) where
  | value (v : Option F)
  | advance (outcome : Outcome)
  | done
  | cloned (outside : Bool)
  | refused
  deriving Repr, DecidableEq

variable {S : Type u} {T : Type w} {F : Type v}

/-- A call on one iterator: its new state, a clone, and the answer. -/
def Calls.one (P : Calls S F) (s : S) (kind : Kind) (granted : Bool) : S × Option S × Answer F :=
  match kind with
  | .value => ((P.value s).1, none, .value (P.value s).2)
  | .advance => ((P.advance s).1, none, .advance (P.advance s).2)
  | .reset => (P.reset s, none, .done)
  | .clone =>
      match if granted then P.clone s else none with
      | none => (s, none, .refused)
      | some (c, outside) => (s, some c, .cloned outside)

/-- All iterators; a clone is put behind them. -/
def Calls.machine (P : Calls S F) : Machine (List S) Call (Answer F) where
  step all call :=
    match all[call.at_]? with
    | none => (all, .refused)
    | some s =>
        let (s, clone, answer) := P.one s call.kind call.granted
        (all.set call.at_ s ++ clone.toList, answer)

/-- The implementation does what the sequence says, from related states, if the call meets
    the condition. -/
structure Conforms (P : Calls S F) (q : Sequence F) (fine : S → Kind → Prop) (rel : S → Nat → Prop) :
    Prop where
  value : ∀ s k, rel s k → rel (P.value s).1 k ∧ (P.value s).2 = (q.calls.value k).2
  advance : ∀ s k, rel s k → fine s .advance →
    rel (P.advance s).1 (q.calls.advance k).1 ∧ (P.advance s).2 = (q.calls.advance k).2
  reset : ∀ s k, rel s k → fine s .reset → rel (P.reset s) 0
  clone : ∀ s k, rel s k → fine s .clone →
    if q.cloneable then ∃ c, P.clone s = some (c, false) ∧ rel c k else P.clone s = none

/-- The condition for the iterator that is called; where no clone is made there is none. -/
def Each (fine : S → Kind → Prop) (all : List S) (call : Call) : Prop :=
  ∀ s, all[call.at_]? = some s → call.kind = .clone ∧ call.granted = false ∨ fine s call.kind

variable {P : Calls S F} {q : Sequence F} {fine : S → Kind → Prop} {rel : S → Nat → Prop}

theorem Conforms.one (conforms : Conforms P q fine rel) {s : S} {k : Nat} (related : rel s k)
    (kind : Kind) (granted : Bool) (ok : kind = .clone ∧ granted = false ∨ fine s kind) :
    rel (P.one s kind granted).1 (q.calls.one k kind granted).1 ∧
      List.Forall₂ rel (P.one s kind granted).2.1.toList (q.calls.one k kind granted).2.1.toList ∧
      (P.one s kind granted).2.2 = (q.calls.one k kind granted).2.2 := by
  cases kind with
  | value =>
      obtain ⟨after, same⟩ := conforms.value s k related
      exact ⟨after, .nil, congrArg Answer.value same⟩
  | advance =>
      obtain ⟨after, same⟩ := conforms.advance s k related (ok.resolve_left fun clone => nomatch clone.1)
      exact ⟨after, .nil, congrArg Answer.advance same⟩
  | reset =>
      exact ⟨conforms.reset s k related (ok.resolve_left fun clone => nomatch clone.1), .nil, rfl⟩
  | clone =>
      cases granted with
      | false => exact ⟨related, .nil, rfl⟩
      | true =>
          have clone := conforms.clone s k related (ok.resolve_left fun refused => nomatch refused.2)
          unfold Calls.one
          by_cases able : q.cloneable = true
          · rw [if_pos able] at clone
            obtain ⟨c, run, related'⟩ := clone
            have spec : q.calls.clone k = some (k, false) := if_pos able
            simp only [if_true, run, spec]
            exact ⟨related, .cons related' .nil, trivial⟩
          · rw [if_neg able] at clone
            have spec : q.calls.clone k = none := if_neg able
            simp only [if_true, clone, spec]
            exact ⟨related, .nil, trivial⟩

theorem forall₂_get {all : List S} {ks : List Nat} (related : List.Forall₂ rel all ks) (i : Nat) :
    (all[i]? = none ∧ ks[i]? = none) ∨
      ∃ s k, all[i]? = some s ∧ ks[i]? = some k ∧ rel s k := by
  induction related generalizing i with
  | nil => exact .inl ⟨rfl, rfl⟩
  | @cons s k all ks here _ ih =>
      cases i with
      | zero => exact .inr ⟨s, k, rfl, rfl, here⟩
      | succ i => exact ih i

theorem forall₂_set {all : List S} {ks : List Nat} (related : List.Forall₂ rel all ks) (i : Nat) {s : S}
    {k : Nat} (new : rel s k) : List.Forall₂ rel (all.set i s) (ks.set i k) := by
  induction related generalizing i with
  | nil => exact .nil
  | cons here there ih =>
      cases i with
      | zero => exact .cons new there
      | succ i => exact .cons here (ih i)

/-- In every run the iterators answer as positions in the sequence do. -/
theorem Conforms.run (conforms : Conforms P q fine rel) {s : S} (start : rel s 0) (calls : List Call)
    (meets : P.machine.Meets (Each fine) [s] calls) :
    P.machine.outputs [s] calls = q.calls.machine.outputs [0] calls := by
  have keep : ∀ (all : List S) (ks : List Nat) (call : Call), List.Forall₂ rel all ks → Each fine all call →
      (P.machine.step all call).2 = (q.calls.machine.step ks call).2 ∧
        List.Forall₂ rel (P.machine.step all call).1 (q.calls.machine.step ks call).1 := by
    intro all ks call related ok
    unfold Calls.machine
    simp only
    rcases forall₂_get related call.at_ with ⟨none_, none'⟩ | ⟨s, k, found, found', here⟩
    · rw [none_, none']
      exact ⟨rfl, related⟩
    · rw [found, found']
      obtain ⟨after, clones, same⟩ := conforms.one here call.kind call.granted (ok s found)
      exact ⟨same, List.rel_append (forall₂_set related call.at_ after) clones⟩
  exact (Machine.simulation keep (.cons start .nil) meets).1

end Mpt.Iteration
