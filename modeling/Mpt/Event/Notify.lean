import Mpt.Core

/-! # Waiting for inputs

The notifier knows an input by its file.  The buffer for the wait holds the records for
`poll`, and then, in the same memory, the inputs that have something to be processed.
The descriptor of the system for the poll is not used.
-/

namespace Mpt.Event

/-- An input is known by its address. -/
abbrev Input := Nat

/-- Eight bytes of the buffer for the wait. -/
inductive Word where
  | null
  | input (p : Input)
  /-- `struct pollfd` -/
  | event (fd what revents : Nat)
  deriving Repr, DecidableEq

/-- `struct notify`: a missing buffer has no elements.  Accepted and released references
    are noted. -/
structure Notify where
  slot : List (Option Input)
  wait : List Word
  fdused : Nat
  accepted : List Input
  released : List Input
  deriving Repr, DecidableEq

/-- `MPT_NOTIFY_INIT` -/
def Notify.init : Notify := ⟨[], [], 0, [], []⟩

/-- `mpt_notify_add`, when memory for more slots is granted or not.  The socket of an input
    is what it converts to. -/
def Notify.add (socket : Input → Option Nat) (granted : Bool) (no : Notify) (mode : Int)
    (given : Option Input) : Notify × Except Error Int :=
  match given with
  | none => (no, .error .badArgument)
  | some p =>
      match socket p with
      | none => (no, .error .badArgument)
      | some id =>
          if no.slot.length ≤ id ∧ granted = false then
            (no, if no.slot = [] then .ok 0 else .error .badOperation)
          else
            let slot := no.slot ++ List.replicate (id + 1 - no.slot.length) none
            match slot[id]?.join with
            | some _ => ({ no with slot := slot }, .error .badArgument)
            | none =>
                ({ no with
                  slot := slot.set id (some p)
                  fdused := no.fdused + 1
                  accepted := no.accepted ++ [p] }, .ok mode)

/-- The loop of `mpt_notify_clear`: it runs over the slots from `base` on, as many as the
    buffer for the wait has elements.  What lies behind the slots is not touched. -/
def purge (curr : Input) (base len : Nat) (slot : List (Option Input)) : List (Option Input) :=
  slot.mapIdx fun i p => if base ≤ i ∧ i < base + len ∧ p = some curr then none else p

/-- `mpt_notify_clear` -/
def Notify.clear (no : Notify) (file : Nat) : Notify × Int :=
  match no.slot[file]? with
  | none => (no, no.fdused)
  | some none => (no, -2)
  | some (some curr) =>
      ({ no with
        slot := purge curr file no.wait.length (no.slot.set file none)
        fdused := no.fdused - 1
        released := no.released ++ [curr] }, (no.fdused - 1 : Nat))

/-- The records for `poll`, one for each slot in use. -/
def pollEvents (what : Nat) (revents : Nat → Nat) : (i : Nat) → List (Option Input) → List Word
  | _, [] => []
  | i, none :: rest => pollEvents what revents (i + 1) rest
  | i, some _ :: rest => .event i what (revents i) :: pollEvents what revents (i + 1) rest

/-- `poll` counts the records that have an event. -/
def Word.active : Word → Bool
  | .event _ _ revents => revents ≠ 0
  | _ => false

/-- The loop of `mpt_notify_wait` over the first records: `next` of an input gets its
    events.  Results are stored from the start of the same buffer. -/
def waitLoop (what : Nat) (next : Input → Nat → Int) : (rounds i : Nat) → Notify → (fdmax : Nat) →
    Notify × Nat
  | 0, _, no, fdmax => (no, fdmax)
  | rounds + 1, i, no, fdmax =>
      match no.wait[i]? with
      | some (.event fd _ revents) =>
          if revents &&& what = 0 then
            waitLoop what next rounds (i + 1) no fdmax
          else
            match no.slot[fd]?.join with
            | none => waitLoop what next rounds (i + 1) no fdmax
            | some curr =>
                -- call selector
                if next curr (revents &&& what) < 0 then
                  waitLoop what next rounds (i + 1) (no.clear fd).1 fdmax
                else if next curr (revents &&& what) = 0 then
                  waitLoop what next rounds (i + 1) no fdmax
                else
                  waitLoop what next rounds (i + 1)
                    { no with wait := no.wait.set fdmax (.input curr) } (fdmax + 1)
      | _ => waitLoop what next rounds (i + 1) no fdmax

/-- `mpt_notify_wait` when `poll` finds the events `found`, or fails. -/
def Notify.waitFor (granted : Bool) (no : Notify) (what : Nat) (found : Option (Nat → Nat))
    (next : Input → Nat → Int) : Notify × Except Error Int :=
  if no.fdused = 0 then
    (no, .error .missingData)
  else if no.wait.length < no.fdused ∧ granted = false then
    (no, .error .badOperation)
  else
    let used := no.wait.length
    let ev := pollEvents what (found.getD fun _ => 0) 0 no.slot
    let words := no.wait ++ List.replicate (no.fdused - used) .null
    let words := (ev ++ words.drop ev.length).take words.length
    let act := ev.countP Word.active
    if act = 0 then
      ({ no with wait := words.take used },
        .ok (if used ≠ 0 then used else if found.isSome then 0 else -1))
    else
      let (no, fdmax) := waitLoop what next act 0 { no with wait := words } 0
      ({ no with wait := no.wait.take fdmax }, .ok fdmax)

/-- The search of `mpt_notify_next`. -/
def takeFirst : List Word → Option (List Word × Word)
  | [] => none
  | .null :: rest => (takeFirst rest).map fun (rest, w) => (.null :: rest, w)
  | w :: rest => some (.null :: rest, w)

/-- `mpt_notify_next`: what is returned is taken for an input. -/
def Notify.next (no : Notify) : Notify × Word :=
  match takeFirst no.wait with
  | some (wait, w) => ({ no with wait := wait }, w)
  | none => ({ no with wait := [] }, .null)

end Mpt.Event
