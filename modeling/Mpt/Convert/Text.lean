import Mpt.Convert.Decode

/-! # Zero-terminated text

`mpt_encode_string` puts a separator behind each text.  `mpt_decode_command` turns
every text of such a stream into a command message, with a header in place of the two
bytes before the text.
-/

namespace Mpt.Text

open Cobs (sourceParts)

/-- The encoder state of texts with a separator of one byte, which is `_ctx`: no part of
    the separator is open (`scratch` is 0). -/
structure TextState where
  ctx : Byte
  done : Nat
  deriving Repr, DecidableEq

/-- `mpt_memrchr` of one byte -/
def lastIndex (x : Byte) (l : List Byte) : Option Nat :=
  (l.reverse.findIdx? (· = x)).map fun i => l.length - 1 - i

/-- Go back by a number of separators. -/
def dropTexts (ctx : Byte) (l : List Byte) : (len off : Nat) → Option Nat
  | 0, off => some off
  | len + 1, off =>
      match lastIndex ctx (l.take off) with
      | none => none
      | some pos => dropTexts ctx l len pos

/-- `mpt_encode_string` -/
def encodeString (info : TextState) (m : Mem Byte) (target : Option Iovec) (source : Option Data) :
    TextState × Mem Byte × Except Error Nat :=
  match target with
  | none => (⟨0, 0⟩, m, .ok 0)
  | some target =>
      let off := info.done
      if target.len < off then
        (info, m, .error .badArgument)
      else
        let max := target.len - off
        match source with
        -- terminate string
        | none =>
            if max = 0 then
              (info, m, .error .missingBuffer)
            else
              ({ info with done := off + 1 }, m.set (target.base + off) info.ctx, .ok 0)
        | some src =>
            if src.len = 0 then
              (info, m, .error .badArgument)
            else
              match src with
              -- delete buffered data
              | .null len =>
                  if off = 0 then
                    (info, m, .error .missingData)
                  else
                    let l := m.read target.base off
                    -- no active message, remove endbyte
                    let off := if l.getLast? = some 0 then off - 1 else off
                    match dropTexts info.ctx l len off with
                    | none => (info, m, .error .missingData)
                    | some off => ({ info with done := info.done - off }, m, .ok off)
              | .bytes l =>
                  if max = 0 then
                    (info, m, .error .missingBuffer)
                  else
                    let l := l.take max
                    if info.ctx ∈ l then
                      (info, m, .error .badEncoding)
                    else
                      ({ info with done := off + l.length }, m.write (target.base + off) l, .ok l.length)

/-- `{ MPT_MESGTYPE(Command), ' ' }` -/
def header : List Byte := [4, 32]

/-- Write the header over the parts of a message.  What follows is searched from `base`:
    that is where the header starts in its last part, not where it ends. -/
def putHeader (m : Mem Byte) (base at_ used : Nat) (cont : List Iovec) :
    List Byte → Mem Byte × Option Message
  | [] => (m, some ⟨base, used, cont⟩)
  | b :: bs =>
      if used ≠ 0 then
        putHeader (m.set at_ b) base (at_ + 1) (used - 1) cont bs
      else
        let next := Message.settle 0 0 cont
        if next.used ≠ 0 then
          putHeader (m.set next.base b) next.base (next.base + 1) (next.used - 1) next.cont bs
        else
          (m, none)

/-- The search for the end of a command: its length, and if it is there. -/
def findEnd (m : Mem Byte) (base used len : Nat) : (cont : List Iovec) → Nat × Bool
  | [] =>
      match (m.read base used).findIdx? (· = 0) with
      | some pos => (len + pos, true)
      | none => (len + used, false)
  | next :: cont =>
      match (m.read base used).findIdx? (· = 0) with
      | some pos => (len + pos, true)
      | none => findEnd m next.base next.len (len + used) cont

/-- The end of `mpt_decode_command`, with the text from `msg` on and `len` bytes before it. -/
def finish (dec : DecodeState) (m : Mem Byte) (msg : Message) (off len sourcelen : Nat) :
    DecodeState × Mem Byte × Except Error Nat :=
  match findEnd m msg.base msg.used len msg.cont with
  | (len, true) =>
      if sourcelen = 0 ∨ dec.msg ≠ none then
        ({ dec with curr := off + len, len := len }, m, .ok 1)
      else
        ({ dec with curr := off + len + 1, len := len, msg := some len }, m, .ok 1)
  | (len, false) => ({ dec with curr := off + len, len := len }, m, .ok 0)

/-- `mpt_decode_command` -/
def decodeCommand (dec : DecodeState) (m : Mem Byte) (source : Option (List Iovec))
    (sourcelen : Nat) : DecodeState × Mem Byte × Except Error Nat :=
  match source with
  | none => (DecodeState.init, m, .ok 0)
  | some source =>
      if dec.msg ≠ none ∧ sourcelen = 0 then
        (dec, m, .error .badOperation)
      else
        let len := dec.len - dec.msg.getD 0
        -- start new message
        if len = 0 then
          if sourcelen = 0 then
            (dec, m, .error .badOperation)
          -- need place for header
          else if dec.curr < 2 then
            (dec, m, .error .missingBuffer)
          else
            let off := dec.curr - 2
            let (msg, used) := (sourceParts source sourcelen).read off
            if used.length < off then
              (dec, m, .error .missingData)
            else
              match putHeader m msg.base msg.base msg.used msg.cont header with
              | (m, none) => (dec, m, .error .missingBuffer)
              | (m, some msg) => finish { dec with pos := off, len := 2, msg := none } m msg off 2 sourcelen
        -- check persistent data assumption
        else if dec.curr ≠ dec.pos + len then
          (dec, m, .error .badArgument)
        else
          let (msg, used) := (sourceParts source sourcelen).read dec.curr
          if used.length < dec.curr then
            (dec, m, .error .missingData)
          else
            finish dec m msg dec.pos len sourcelen

end Mpt.Text
