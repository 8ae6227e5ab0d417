import Mpt.Array.Heap

/-! # The command table

A table of event handlers: an array of commands on the heap, in which a command
without a handler is an unused slot.  A handler is told that it is no longer used
by a call without an event.  Pointers are addresses, the null pointer is 0.
-/

namespace Mpt.Event

/-- `struct command` -/
structure Command where
  id : UInt64
  cmd : Nat
  arg : Nat
  deriving Repr, DecidableEq

/-- `sizeof(struct command)` -/
def commandSize : Nat := 24

/-- The buffer of a table: its size in bytes and the commands it holds.  It has one
    owner, as the flag `BufferNoCopy` rules out copies. -/
structure Slots where
  size : Nat
  cmds : List Command

/-- A command array with the number of requests for memory so far and the terminating
    calls `cmd(arg, 0)` made. -/
structure Table where
  buf : Option Slots
  mallocs : Nat
  calls : List (Nat × Nat)

/-- `mpt_dispatch_init`, as far as the table goes. -/
def Table.init : Table := ⟨none, 0, []⟩

/-- `mpt_command_find`: the position of the active command with an id. -/
def commandFind (cmds : List Command) (id : UInt64) : Option Nat :=
  cmds.findIdx? fun c => c.cmd ≠ 0 ∧ id = c.id

/-- `mpt_command_empty`: the position of the first unused slot. -/
def commandEmpty (cmds : List Command) : Option Nat := cmds.findIdx? fun c => c.cmd = 0

namespace Table

/-- The commands of the table. -/
def cmds (t : Table) : List Command :=
  match t.buf with
  | none => []
  | some s => s.cmds

/-- `mpt_command_get` -/
def get (t : Table) (id : UInt64) : Option Nat :=
  match t.buf with
  | none => none
  | some s => if s.cmds.length = 0 then none else commandFind s.cmds id

/-- A request for a buffer with `len` bytes; `env` says which requests succeed. -/
def alloc (env : Nat → Bool) (t : Table) (len : Nat) : Table × Option Nat :=
  ({ t with mallocs := t.mallocs + 1 },
    if env t.mallocs then some (Heap.blockSize len - 64) else none)

/-- `mpt_array_insert` of one command at the end of the used range, which moves the
    content to a larger buffer if need be, and the assignment of its members. -/
def append (env : Nat → Bool) (t : Table) (s : Slots) (c : Command) : Table × Bool :=
  let used := s.cmds.length * commandSize
  if Heap.longMax - used < commandSize then
    (t, false)
  else if used + commandSize ≤ s.size then
    ({ t with buf := some { s with cmds := s.cmds ++ [c] } }, true)
  else
    match t.alloc env (used + commandSize) with
    | (t, none) => (t, false)
    | (t, some size) =>
        if used + commandSize ≤ size then
          ({ t with buf := some ⟨size, s.cmds ++ [c]⟩ }, true)
        else
          ({ t with buf := some ⟨size, s.cmds⟩ }, false)

/-- Replace the command at a position; the one there is told so. -/
def replace (t : Table) (pos : Nat) (cmd arg : Nat) : Table :=
  match t.buf with
  | none => t
  | some s =>
      match s.cmds[pos]? with
      | none => t
      | some dest =>
          { t with
            buf := some { s with cmds := s.cmds.set pos { dest with cmd := cmd, arg := arg } }
            calls := t.calls ++ [(dest.cmd, dest.arg)] }

/-- `mpt_command_set` -/
def commandSet (env : Nat → Bool) (t : Table) (id : UInt64) (cmd arg : Nat) :
    Table × Except Error Nat :=
  match t.get id with
  -- replace/delete command
  | some dest => (t.replace dest cmd arg, .ok (if cmd ≠ 0 then 0 else 2))
  | none =>
      match t.buf with
      | none =>
          match t.alloc env commandSize with
          | (t, none) => (t, .error .badOperation)
          | (t, some size) =>
              if size < commandSize then
                ({ t with buf := some ⟨size, []⟩ }, .error .badOperation)
              else
                ({ t with buf := some ⟨size, [⟨id, cmd, arg⟩]⟩ }, .ok 1)
      | some s =>
          match commandEmpty s.cmds with
          -- place in empty area
          | some dest =>
              ({ t with buf := some { s with cmds := s.cmds.set dest ⟨id, cmd, arg⟩ } }, .ok 0)
          | none =>
              match t.append env s ⟨id, cmd, arg⟩ with
              | (t, false) => (t, .error .badOperation)
              | (t, true) => (t, .ok 1)

/-- `mpt_dispatch_set` -/
def dispatchSet (env : Nat → Bool) (t : Table) (id : UInt64) (cmd arg : Nat) :
    Table × Except Error Nat :=
  match t.get id with
  | none => if cmd = 0 then (t, .error .badArgument) else t.commandSet env id cmd arg
  | some dst =>
      -- clear registration, or id already used
      if cmd = 0 then (t.replace dst 0 0, .ok dst) else (t, .error .badArgument)

/-- `mpt_command_clear` -/
def clear (t : Table) : Table :=
  match t.buf with
  | none => t
  | some s =>
      { t with
        buf := some { s with cmds := [] }
        calls := t.calls ++ (s.cmds.filter fun c => c.cmd ≠ 0).map fun c => (c.cmd, c.arg) }

/-- `_command_fini` on every element of the used range. -/
def finiCalls (s : Slots) : List (Nat × Nat) :=
  (s.cmds.filter fun c => c.cmd ≠ 0).map fun c => (c.cmd, c.arg)

/-- `mpt_array_clone(&disp->_d, 0)`: the last reference of the buffer is dropped. -/
def drop (t : Table) : Table :=
  match t.buf with
  | none => t
  | some s => { t with buf := none, calls := t.calls ++ finiCalls s }

/-- `mpt_dispatch_fini`, as far as the table goes. -/
def fini (t : Table) : Table := t.clear.drop

end Table

end Mpt.Event
