import Mpt.Event.Command
import Mpt.Message.Id

/-! # Requests on a connection

A connection with a stream below it.  A handler is registered for the id that the next
message gets, and is looked up by the id of a reply.
-/

namespace Mpt.Output

open Event (Command Slots commandSize commandFind)

/-- `struct connection` with a stream, as far as requests go: the length of an id, the id of
    the next message, the state of that message, the handlers, and the calls
    `cmd(arg, 0)` made. -/
structure Connection where
  idlen : Nat
  cid : UInt64
  active : Bool
  remote : Bool
  wait : Option Slots
  calls : List (Nat × Nat)

/-- `MPT_CONNECTION_INIT` -/
def Connection.init (idlen : Nat) : Connection := ⟨idlen, 0, false, false, none, []⟩

/-- `log_reply` -/
def logReply : Nat := 1

/-- `mpt_command_get` -/
def commandGet (wait : Option Slots) (id : UInt64) : Option Command :=
  match wait with
  | none => none
  | some s =>
      match commandFind s.cmds id with
      | none => none
      | some pos => s.cmds[pos]?

/-- The smallest unused position in a range of `n`, or its end. -/
def nextFree (cmds : List Command) (pos : Nat) : (n : Nat) → Nat
  | 0 => pos
  | n + 1 =>
      match cmds[pos]? with
      | some c => if c.cmd = 0 then pos else nextFree cmds (pos + 1) n
      | none => pos

/-- The loop of `mpt_command_reserve` over the last `n` commands, with the smallest unused
    position, the highest id and the number of active commands so far. -/
def compact (cmds : List Command) (i : Nat) (cmd : Option Nat) (mid : UInt64) (used : Nat) :
    (n : Nat) → List Command × UInt64 × Nat
  | 0 => (cmds, mid, used)
  | n + 1 =>
      match cmds[i]? with
      | none => (cmds, mid, used)
      | some c =>
          -- find highest previous id
          let mid := if mid < c.id then c.id else mid
          if c.cmd = 0 then
            compact cmds (i + 1) (cmd.or (some i)) mid used n
          else
            match cmd with
            | none => compact cmds (i + 1) none mid (used + 1) n
            | some pos =>
                -- move command entry
                let cmds := (cmds.set pos c).set i { c with cmd := 0 }
                compact cmds (i + 1) (some (nextFree cmds (pos + 1) (i - (pos + 1)))) mid (used + 1) n

/-- The lowest id from `i` on that no command has. -/
def lowId (cmds : List Command) (i : Nat) : (n : Nat) → Option UInt64
  | 0 => none
  | n + 1 => if commandFind cmds (.ofNat i) = none then some (.ofNat i) else lowId cmds (i + 1) n

/-- `mpt_array_append` of one command; a larger buffer may be refused. -/
def appendCommand (s : Slots) (c : Command) (granted : Bool) : Option Slots :=
  let used := s.cmds.length * commandSize
  if s.size - used < commandSize then
    if granted then some ⟨Heap.blockSize (used + commandSize) - 64, s.cmds ++ [c]⟩ else none
  else
    some { s with cmds := s.cmds ++ [c] }

/-- `mpt_command_reserve`: the new command is the last one. -/
def commandReserve (wait : Option Slots) (max : Nat) (granted : Bool) :
    Option Slots × Option Command :=
  if max = 0 then
    (wait, none)
  else
    let max := Message.reserveMax max
    match wait with
    | none =>
        if granted then
          let cmd : Command := ⟨1, logReply, 1⟩
          (some ⟨Heap.blockSize (commandSize * 8) - 64, cmd :: List.replicate 7 ⟨0, 0, 0⟩⟩, some cmd)
        else
          (none, none)
    | some s =>
        let (cmds, mid, used) := compact s.cmds 0 none 0 0 s.cmds.length
        let s : Slots := { s with cmds := cmds.take used }
        -- try to find low free id
        let mid := if max < mid.toNat + 1 then lowId s.cmds 1 max else some (mid + 1)
        match mid with
        | none => (some s, none)
        | some mid =>
            let cmd : Command := ⟨mid, logReply, mid.toNat⟩
            match appendCommand s cmd granted with
            | none => (some s, none)
            | some s => (some s, some cmd)

/-- Set handler and argument of the command that was reserved: the first one of a new
    array, the last one of another. -/
def setHandler (fresh : Bool) (wait : Option Slots) (cmd arg : Nat) : Option Slots :=
  wait.map fun s =>
    let pos := if fresh then 0 else s.cmds.length - 1
    { s with cmds := s.cmds.modify pos fun c => { c with cmd := cmd, arg := arg } }

/-- `mpt_connection_await`: a null handler leaves the default. -/
def await (con : Connection) (ctl udata : Nat) (granted : Bool) : Connection × Except Error Nat :=
  -- message in progress
  if con.cid ≠ 0 ∨ con.active then
    (con, .error .badOperation)
  else
    match commandReserve con.wait (min con.idlen 4) granted with
    | (wait, none) => ({ con with wait := wait }, .error .badValue)
    | (wait, some cmd) =>
        ({ con with
          remote := true
          cid := cmd.id
          wait := if ctl ≠ 0 then setHandler con.wait.isNone wait ctl udata else wait },
          .ok (if con.wait.isNone then 1 else (wait.map fun s => s.cmds.length).getD 0))

/-- `deregisterCommand` -/
def deregisterCommand (con : Connection) : Connection :=
  match commandGet con.wait con.cid with
  | none => con
  | some ans => { con with calls := con.calls ++ [(ans.cmd, ans.arg)] }

/-- The results of `mpt_stream_push` for the id and for the data of a message. -/
structure StreamResult where
  id : Except Error Nat
  data : Except Error Nat

/-- The data of `mpt_connection_push`. -/
def pushData (con : Connection) (len : Nat) (srm : StreamResult) : Connection × Except Error Nat :=
  match srm.data with
  | .error e =>
      let con := { con with active := false }
      -- clear pending reply
      (if con.cid ≠ 0 then deregisterCommand con else con, .error e)
  | .ok ret =>
      -- message completed
      if len = 0 then ({ con with active := false, cid := 0 }, .ok ret)
      else ({ con with active := true }, .ok ret)

/-- `mpt_connection_push` on a stream. -/
def push (con : Connection) (len : Nat) (srm : StreamResult) : Connection × Except Error Nat :=
  -- new message start
  if con.active = false ∧ con.idlen ≠ 0 then
    -- create normalized ID
    if 64 < con.idlen then
      (con, .error .badValue)
    else
      match (Message.id2buf con.cid (fun _ => 0) 0 con.idlen).2 with
      | .error e => (con, .error e)
      | .ok _ =>
          match srm.id with
          | .error _ => pushData con len srm
          | .ok ret =>
              -- force atomic id push
              if ret < con.idlen then
                (if con.cid ≠ 0 then deregisterCommand con else con, .error .missingBuffer)
              else
                pushData { con with active := true } len srm
  else
    pushData con len srm

/-- What becomes of a message that has arrived. -/
inductive Dispatched where
  /-- a message is being sent -/
  | retry
  /-- what is taken for the connection is none -/
  | undefined
  | error (e : Error)
  /-- nobody is called -/
  | done
  /-- a handler that was registered is called with the rest of the message -/
  | answer (ans : Command) (msg : List Byte)
  /-- the handler of requests is called -/
  | event (cmd arg : Nat) (msg : List Byte)
  deriving DecidableEq

/-- A request for the handler `wd->cmd`. -/
def requested (cmd arg : Nat) (msg : List Byte) : Dispatched :=
  if cmd = 0 then .done else .event cmd arg msg

/-- `streamWrapper`, with what is found at `wd->con`.  `stack` and `mid` are what is in the
    memory of the local variables for the bytes of the id and for its value. -/
def streamWrapper (con : Option Connection) (cmd arg : Nat) (stack : Mem Byte) (mid : UInt64)
    (msg : List Byte) : Dispatched :=
  match con with
  | none => .undefined
  | some con =>
      -- default to one-way processing
      if con.idlen = 0 then
        requested cmd arg msg
      -- consume message ID
      else if msg.length < con.idlen then
        .error .badValue
      else
        let id := stack.write 0 (msg.take con.idlen)
        let msg := msg.drop con.idlen
        -- test reply indicator
        if id 0 &&& 0x80 ≠ 0 then
          let id := id.set 0 (id 0 &&& 0x7f)
          let mid := (Message.buf2id id 0 con.idlen).stored.getD mid
          -- find reply handler
          match commandGet con.wait mid with
          | none => .error .badValue
          | some ans => .answer ans msg
        else
          requested cmd arg msg

/-- Where an address leads that was never set: to the connection itself, to memory that is taken
    for one, or nowhere. -/
inductive Stray where
  | here
  | other (con : Connection)
  | nowhere

/-- The connection that is found at the address. -/
def Stray.found (con : Connection) : Stray → Option Connection
  | here => some con
  | other con' => some con'
  | nowhere => none

/-- `struct _streamWrapper`: what its memory holds. -/
structure StreamWrapper where
  con : Stray
  cmd : Nat
  arg : Nat

/-- `mpt_connection_dispatch` on a stream.  It leaves the members of `sw` unset. -/
def connectionDispatch (con : Connection) (sw : StreamWrapper) (stack : Mem Byte) (mid : UInt64)
    (msg : List Byte) : Dispatched :=
  -- message transfer in progress
  if con.active then .retry else streamWrapper (sw.con.found con) sw.cmd sw.arg stack mid msg

end Mpt.Output
