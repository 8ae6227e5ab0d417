import Mpt.Queue.Ring
import Mpt.Convert.Encode

/-! # Encoding into a queue

`mpt_queue_push` lets the encoder work in the storage of the ring.  The finished
bytes and the open block may lie on both sides of its end, so there are several
ways to give the encoder one range: the upper or the lower part of the storage,
a copy, or all of the storage after an alignment.
-/

namespace Mpt

/-- The range that follows `n` bytes (behind a null pointer there is none). -/
def Data.drop (d : Data) (n : Nat) : Data :=
  match d with
  | .null len => .null (len - n)
  | .bytes l => .bytes (l.drop n)

/-- `struct encode_queue` without its encoder. -/
structure EncodeQueue where
  data : Queue
  state : EncodeState

namespace EncodeQueue

/-- `mpt_queue_push` without an encoder: direct data append. -/
def pushRaw (qu : EncodeQueue) (src : Data) : EncodeQueue × Except Error Nat :=
  if src.len = 0 then
    (⟨qu.data, { qu.state with done := qu.data.len, scratch := 0 }⟩, .ok qu.data.len)
  else
    match src with
    | .null len =>
        if qu.state.scratch = 0 ∨ 1 < len then
          (qu, .error .badOperation)
        else
          (⟨{ qu.data with len := qu.state.done }, { qu.state with scratch := 0 }⟩, .ok 0)
    | .bytes src =>
        if qu.state.done + qu.state.scratch ≠ qu.data.len then
          (qu, .error .badEncoding)
        else if qu.data.max - qu.data.len = 0 then
          (qu, .error .missingBuffer)
        else
          let low := min (qu.data.max - qu.data.len) src.length
          let (data, _) := qu.data.push (.bytes (src.take low))
          (⟨data, { qu.state with scratch := qu.state.scratch + low }⟩, .ok low)

/-- A call of the encoder with `done` finished bytes in a range of the storage. -/
def encodeIn (enc : Encoder) (qu : EncodeQueue) (done : Nat) (vec : Iovec) (src : Option Data) :
    EncodeQueue × Except Error Nat :=
  let (state, mem, push) := enc { qu.state with done := done } qu.data.mem (some vec) src
  (⟨{ qu.data with mem := mem }, state⟩, push)

/-- Out-of-band wrapping: the encoder works on a copy of the open block.  There is no
    result where the code aborts. -/
def outOfBand (enc : Encoder) (qu : EncodeQueue) (src : Option Data) :
    Option (EncodeQueue × Except Error Nat) :=
  let done := qu.state.done
  let max := min (qu.data.max - done) 256
  let buf : Mem Byte := match qu.data.getRange done qu.state.scratch true with
    | .ok (bytes, _) => Mem.write (fun _ => 0) 1 bytes
    | .error _ => fun _ => 0
  let (state, buf, push) := enc { qu.state with done := 0 } buf (some ⟨1, max⟩) src
  match push with
  | .error e => some (⟨qu.data, { state with done := done + state.done }⟩, .error e)
  | .ok push =>
      let set := state.done + state.scratch
      if qu.data.max < done + set then
        none
      else
        let data := { qu.data with len := done + set }
        let data := match data.setRange done (.bytes (buf.read 1 set)) with
          | .ok (data, _) => data
          | .error _ => data
        some (⟨data, { state with done := done + state.done }⟩, .ok push)

/-- The encoder on all of the storage, after an alignment. -/
def pushAligned (enc : Encoder) (qu : EncodeQueue) (src : Option Data) :
    EncodeQueue × Except Error Nat :=
  let qu : EncodeQueue := ⟨qu.data.align 0, qu.state⟩
  qu.encodeIn enc qu.state.done ⟨qu.data.base, qu.data.max⟩ src

/-- The sum of both results, where the second counts if it is positive. -/
def total (push : Nat) : Except Error Nat → Except Error Nat
  | .ok push2 => .ok (push + push2)
  | .error _ => .ok push

/-- `mpt_queue_push` where the open block starts in the lower part of the content.
    `high` is the size of the storage before it, `low` that up to its end. -/
def pushLower (enc : Encoder) (qu : EncodeQueue) (src : Data) :
    Option (EncodeQueue × Except Error Nat) :=
  let high := qu.data.off
  let low := qu.data.max - high
  let from_ := if src.len = 0 then none else some src
  let first :=
    -- encoder data wrapping
    if qu.state.scratch ≤ low - qu.state.done then
      some (qu.encodeIn enc qu.state.done ⟨qu.data.base + high, low⟩ from_)
    -- exceed temporary buffer
    else if 256 ≤ qu.state.scratch then
      some (qu, .error .badArgument)
    else
      qu.outOfBand enc from_
  match first with
  | none => none
  | some (qu, .error _) => some (qu.pushAligned enc from_)
  | some (qu, .ok push) =>
      if push < src.len then
        let rest := some (src.drop push)
        if qu.state.done < low then
          let (qu, push2) := qu.pushAligned enc rest
          some (qu, total push push2)
        else
          -- second push in upper part only
          let done := qu.state.done - low
          let (qu, push2) := qu.encodeIn enc done ⟨qu.data.base, high⟩ rest
          some (⟨qu.data, { qu.state with done := qu.state.done + done }⟩, total push push2)
      else
        some (qu, .ok push)

/-- The used range ends with the open block; the code aborts if that is too large. -/
def settle (qu : EncodeQueue) (push : Except Error Nat) :
    EncodeQueue × Option (Except Error Nat) :=
  let len := qu.state.done + qu.state.scratch
  (⟨{ qu.data with len := len }, qu.state⟩, if qu.data.max < len then none else some push)

/-- `mpt_queue_push` -/
def push (enc : Option Encoder) (qu : EncodeQueue) (src : Data) :
    EncodeQueue × Option (Except Error Nat) :=
  match enc with
  | none =>
      let (qu, push) := qu.pushRaw src
      (qu, some push)
  | some enc =>
      let high := qu.data.off
      let low := qu.data.max - high
      let from_ := if src.len = 0 then none else some src
      if high = 0 then
        let (qu, push) := qu.encodeIn enc qu.state.done ⟨qu.data.base, qu.data.max⟩ from_
        qu.settle push
      -- encode in upper part
      else if low ≤ qu.state.done then
        let (qu, push) := qu.encodeIn enc (qu.state.done - low)
          ⟨qu.data.base + (qu.state.done - low), high⟩ from_
        settle ⟨qu.data, { qu.state with done := qu.state.done + low }⟩ push
      else
        match qu.pushLower enc src with
        | none => (qu, none)
        | some (qu, push) => qu.settle push

end EncodeQueue

end Mpt
