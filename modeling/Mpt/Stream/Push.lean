import Mpt.Queue.Push
import Mpt.Queue.Resize

/-! # Writing messages to a stream

A push goes on until all data is in the write queue, which grows when the encoder
has no room left.  A push without data ends the message.
-/

namespace Mpt

/-- `struct stream`, as far as it writes. -/
structure Stream where
  wd : EncodeQueue
  enc : Option Encoder
  /-- `MPT_STREAMFLAG(MesgActive)` -/
  mesgActive : Bool
  /-- `MPT_STREAMFLAG(WriteBuf)` -/
  writeBuf : Bool
  /-- `MPT_STREAMFLAG(WriteMap)` -/
  writeMap : Bool
  /-- `mpt_newline_string` of the flags -/
  newline : Option (List Byte)
  /-- how often the queue was prepared for more data -/
  asked : Nat

/-- The storage that every preparation of the queue is granted. -/
abbrev Memory := Nat → Option Fresh

/-- `struct message` with the content of its parts. -/
structure Parts where
  base : List Byte
  cont : List (List Byte)

namespace Parts

def all (m : Parts) : List (List Byte) := m.base :: m.cont

def bytes (m : Parts) : List Byte := m.base ++ m.cont.flatten

end Parts

namespace Stream

/-- How one round of `mpt_stream_push` ends. -/
inductive Round where
  | pushed (n : Nat)
  | again
  | failed (e : Error)

/-- The end of a round without success. -/
def retry (memory : Memory) (s : Stream) (post : Error) : Stream × Round :=
  -- incompatible error state
  if post ≠ .missingBuffer then
    (s, .failed post)
  -- queue not resizable
  else if s.writeBuf = false ∨ s.writeMap = true then
    (s, .failed .badArgument)
  -- append queue data
  else
    let (data, left) := s.wd.data.prepare (memory s.asked) 256
    ({ s with wd := ⟨data, s.wd.state⟩, asked := s.asked + 1 },
      if left = 0 then .failed .badOperation else .again)

/-- One round; there is no result where the code aborts. -/
def round (memory : Memory) (s : Stream) (src : Data) : Stream × Option Round :=
  match s.wd.push s.enc src with
  | (wd, none) => ({ s with wd := wd }, none)
  | (wd, some (.ok n)) => ({ s with wd := wd }, some (.pushed n))
  | (wd, some (.error e)) =>
      let (s, r) := retry memory { s with wd := wd } e
      (s, some r)

/-- `mpt_stream_push` with data -/
def pushData (memory : Memory) :
    (rounds : Nat) → Stream → Data → (total : Nat) → Option (Stream × Except Error Nat)
  | 0, _, _, _ => none
  | rounds + 1, s, src, total =>
      match s.round memory src with
      | (_, none) => none
      | (s, some (.pushed n)) =>
          let s := { s with mesgActive := true }
          if src.len - n = 0 then
            some (s, .ok (total + n))
          else
            pushData memory rounds s (src.drop n) (total + n)
      | (s, some .again) => pushData memory rounds s src total
      | (s, some (.failed e)) => some (s, if total = 0 then .error e else .ok total)

/-- The message end without an encoder: a new line and a mark. -/
def endLine (s : Stream) : Stream :=
  let wd := match s.newline with
    | none => s.wd
    | some fmt => (s.wd.push none (.bytes fmt)).1
  { s with wd := (wd.push none (.null 0)).1, mesgActive := false }

/-- `mpt_stream_push` without data: terminate current message -/
def pushEnd (memory : Memory) : (rounds : Nat) → Stream → Option (Stream × Except Error Nat)
  | 0, _ => none
  | rounds + 1, s =>
      let next : Stream × Option Round :=
        match s.enc with
        | none =>
            if (s.newline.getD []).length ≤ s.wd.data.max - s.wd.data.len then
              (s.endLine, some (.pushed 0))
            else
              let (s, r) := s.retry memory .missingBuffer
              (s, some r)
        | some _ => s.round memory (.null 0)
      match next with
      | (_, none) => none
      | (s, some (.pushed n)) => some ({ s with mesgActive := false }, .ok n)
      | (s, some .again) => pushEnd memory rounds s
      | (s, some (.failed e)) => some (s, .error e)

/-- `mpt_stream_push` -/
def push (memory : Memory) (rounds : Nat) (s : Stream) (src : Data) :
    Option (Stream × Except Error Nat) :=
  if src.len = 0 then s.pushEnd memory rounds else pushData memory rounds s src 0

/-- The loop of `mpt_stream_append`, at the part `base` of the message. -/
def appendLoop (memory : Memory) (rounds : Nat) :
    (steps : Nat) → Stream → (base : List Byte) → (cont : List (List Byte)) → (total : Nat) →
      Option (Stream × Except Error Nat)
  | 0, _, _, _, _ => none
  | steps + 1, s, base, cont, total =>
      match s.push memory rounds (.bytes base) with
      | none => none
      | some (s, .error _) => some (s, .error .badOperation)
      | some (s, .ok curr) =>
          if base.length - curr ≠ 0 then
            appendLoop memory rounds steps s (base.drop curr) cont (total + curr)
          else
            match cont with
            | [] => some (s, .ok (total + curr))
            | base :: cont => appendLoop memory rounds steps s base cont (total + curr)

/-- `mpt_stream_append` -/
def append (memory : Memory) (rounds : Nat) (s : Stream) :
    Option Parts → Option (Stream × Except Error Nat)
  | none => some (s, .ok 0)
  | some m => appendLoop memory rounds rounds s m.base m.cont 0

/-- What was pushed of a reply is taken back. -/
def takeBack (memory : Memory) (rounds : Nat) (s : Stream) (len : Nat) (e : Error) :
    Option (Stream × Except Error Nat) :=
  if len = 0 then
    some (s, .error e)
  else
    (s.push memory rounds (.null 1)).map fun p => (p.1, .error e)

/-- `mpt_stream_reply` behind its message of `len` bytes -/
def replyEnd (memory : Memory) (rounds : Nat) (s : Stream) (len : Nat) :
    Option (Stream × Except Error Nat) :=
  match s.push memory rounds (.null 0) with
  | none => none
  | some (s, .error e) => s.takeBack memory rounds len e
  | some (s, .ok _) => some (s, .ok 0)

/-- `mpt_stream_reply` behind its identifier of `len` bytes -/
def replyMessage (memory : Memory) (rounds : Nat) (s : Stream) (len : Nat) :
    Option Parts → Option (Stream × Except Error Nat)
  | none => s.replyEnd memory rounds len
  | some m =>
      match s.append memory rounds (some m) with
      | none => none
      | some (s, .error e) => s.takeBack memory rounds len e
      | some (s, .ok ret) =>
          if ret < m.bytes.length then
            s.takeBack memory rounds (len + ret) .missingBuffer
          else
            s.replyEnd memory rounds (len + ret)

/-- `mpt_stream_reply` -/
def reply (memory : Memory) (rounds : Nat) (s : Stream) (val : Data) (msg : Option Parts) :
    Option (Stream × Except Error Nat) :=
  if s.mesgActive then
    some (s, .error .badArgument)
  else if val.len = 0 then
    s.replyMessage memory rounds 0 msg
  else
    match s.push memory rounds val with
    | none => none
    | some (s, .error e) => some (s, .error e)
    | some (s, .ok _) => s.replyMessage memory rounds val.len msg

end Stream

end Mpt
