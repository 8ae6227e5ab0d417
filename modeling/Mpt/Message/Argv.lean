import Mpt.Message.Read

/-! # Arguments of a message

The arguments of a message are found part by part: white space before an argument and
the end of an argument are looked for in the current part first, and then in the
parts behind it.
-/

namespace Mpt

/-- `mpt_memfcn`: the first position with a character that is accepted. -/
def memfcn (m : Mem Byte) (accept : Byte → Bool) : (data : List Iovec) → Option Nat
  | [] => none
  | v :: vs =>
      match (m.read v.base v.len).findIdx? accept with
      | some pos => some pos
      | none => (memfcn m accept vs).map (v.len + ·)

/-- `mpt_memchr` -/
def memchr (m : Mem Byte) (data : List Iovec) (tok : Byte) : Option Nat :=
  memfcn m (· == tok) data

/-- The loop of `mpt_memtok` without comments: the position of the token, or the open
    escape and the last character at the end of the data. -/
def tokScan (tok esc : List Byte) (match_ prev : Byte) (pos : Nat) :
    List Byte → Except (Byte × Byte) Nat
  | [] => .error (match_, prev)
  | c :: cs =>
      if match_ ≠ 0 then
        -- unset if current is valid end
        tokScan tok esc (if c = match_ ∧ prev ≠ 92 then 0 else match_) c (pos + 1) cs
      else if c ∈ esc then
        tokScan tok esc c prev (pos + 1) cs
      else if c ∈ tok then
        .ok pos
      else
        tokScan tok esc 0 c (pos + 1) cs

/-- `mpt_memtok` -/
def memtok (m : Mem Byte) (data : List Iovec) (tok esc : List Byte) : Option Nat :=
  (tokScan tok esc 0 32 0 (data.flatMap fun v => m.read v.base v.len)).toOption

/-- `isspace` -/
def isSpace (c : Byte) : Bool := c = 32 || 9 ≤ c && c ≤ 13

/-- `isgraph` -/
def isGraph (c : Int) : Bool := 33 ≤ c && c ≤ 126

/-- `"\t \n\r\v"` -/
def spaces : List Byte := [9, 32, 10, 13, 11]

/-- `"'\""` -/
def quotes : List Byte := [39, 34]

namespace Message

/-- `nextChar` -/
def nextChar (m : Mem Byte) (curr : Iovec) (cont : List Iovec) (tok : Byte) : Nat :=
  match memchr m [curr] tok with
  | some part => part
  | none =>
      match memchr m cont tok with
      | some part => curr.len + part
      | none => curr.len + (cont.map Iovec.len).sum

/-- The parts from the one with a position on. -/
def skipParts (part : Nat) : List Iovec → Nat × List Iovec
  | [] => (part, [])
  | v :: vs => if v.len < part then skipParts (part - v.len) vs else (part, v :: vs)

/-- Trim leading white space. -/
def trim (m : Mem Byte) (msg : Message) : Message :=
  match memfcn m (!isSpace ·) [⟨msg.base, msg.used⟩] with
  | some part => ⟨msg.base + part, msg.used - part, msg.cont⟩
  | none =>
      match memfcn m (!isSpace ·) msg.cont with
      | none => msg
      | some part =>
          let (part, cont) := skipParts part msg.cont
          match cont with
          | [] => msg
          | v :: _ => ⟨v.base + part, v.len - part, cont⟩

/-- `mpt_message_argv`: the message from the argument on, and its length. -/
def argv (m : Mem Byte) (msg : Message) (sep : Int) : Message × Option Nat :=
  -- start on base data
  let msg := settle msg.base msg.used msg.cont
  if msg.used = 0 then
    (msg, none)
  -- find null character
  else if sep = 0 then
    (msg, some (nextChar m ⟨msg.base, msg.used⟩ msg.cont 0))
  else
    let msg := msg.trim m
    let curr : Iovec := ⟨msg.base, msg.used⟩
    -- find space character not in escapes
    if isGraph sep = false then
      match memtok m [curr] spaces quotes with
      | some part => (msg, some part)
      | none =>
          match memtok m msg.cont spaces quotes with
          | some part => (msg, some (curr.len + part))
          | none => (msg, some (nextChar m curr msg.cont 0))
    -- check for termination
    else
      (msg, some (nextChar m curr msg.cont (.ofInt sep)))

/-- `mpt_message_length` -/
def length (msg : Message) : Nat := msg.used + (msg.cont.map Iovec.len).sum

/-- The loop of `mpt_array_message`, with the content and the arguments so far. -/
def argLoop (m : Mem Byte) (sep : Int) (msg : Message) (content : List Byte) (narg : Nat) :
    (fuel : Nat) → Option (Nat × List Byte)
  | 0 => none
  | fuel + 1 =>
      match msg.argv m sep with
      | (_, none) => some (narg, content)
      | (msg, some len) =>
          if len = 0 ∧ sep ≠ 0 then
            some (narg, content)
          else
            let (msg, taken) := msg.read len
            -- save argument and separation
            let arg := taken.map m ++ List.replicate (len - taken.length) 0 ++ [0]
            argLoop m sep (msg.read 1).1 (content ++ arg) (narg + 1) fuel

/-- `mpt_array_message`: the number of arguments and the content of the array.  It gives no
    result while the loop goes on after `fuel` rounds. -/
def arrayMessage (m : Mem Byte) (msg : Message) (sep : Int) (granted : Bool) (fuel : Nat) :
    Option (Except Error (Nat × List Byte)) :=
  if msg.length = 0 then
    some (.ok (0, []))
  -- prepare for maximum size
  else if granted = false then
    some (.error .badOperation)
  else
    (argLoop m sep msg [] 0 fuel).map .ok

/-- The separator that a command has in its header. -/
def headerArg (m : Mem Byte) : (part : List Nat) → Int
  | _ :: arg :: _ => (m arg).toInt8.toInt
  | _ => 0

/-- `mpt_event_command`, where `arguments` is `mpt_meta_arguments`: without a result an error
    can be replied. -/
def eventCommand (m : Mem Byte) (arguments : List Byte → Option β) (msg : Message)
    (granted : Bool) (fuel : Nat) : Option (Except (Option (Error × String)) β) :=
  let (msg, part) := msg.read 2
  match part with
  | [] => some (.error (some (.missingData, "missing message type")))
  | cmd :: _ =>
      if m cmd ≠ 4 then
        some (.error (some (.badType, "bad message type")))
      else
        match arrayMessage m msg (headerArg m part) granted fuel with
        | none => none
        | some (.error _) => some (.error none)
        | some (.ok (_, content)) =>
            match arguments content with
            | none => some (.error (some (.badArgument, "no command content")))
            | some arg => some (.ok arg)

end Message

end Mpt
