import Mpt.Convert.Encode
import Mpt.Message.Read

/-! # The COBS decoders

`mpt_decode_cobs` and `mpt_decode_cobs_r` for both members of the family.  The
decoder works in place on data in several parts: `data.pos` and `data.len` are
the decoded bytes of the message, `curr` is where the encoded bytes go on, and
what lies between is free.
-/

namespace Mpt.Cobs

/-- `MPT_cobs_len_data`: size of the data behind a code byte. -/
def lenData (v : Variant) (code : Nat) : Nat :=
  if code ≤ v.maxlen then code - 1 else code - (v.maxlen + 1)

/-- `MPT_cobs_len_zero`: number of zeros behind a block, when `next` is the byte
    after it. -/
def lenZero (v : Variant) (code next : Nat) : Nat :=
  if v.maxlen < code then 2 else if code < v.maxlen ∧ next ≠ 0 then 1 else 0

/-- `MPT_cobs_max_dec` -/
def maxDec (v : Variant) (n : Nat) : Nat :=
  if v.pairs then n * 2 else n - n / v.maxlen

/-- `MPT_cobs_state` -/
def cobsState (code pos : Nat) : Nat := pos * 0x100 + code

/-- How the block loop ends. -/
inductive Stop where
  /-- no more encoded bytes, no target space for a data byte, or only the first
      block was asked for -/
  | more
  | done
  | missingData
  | missingBuffer
  deriving Repr, DecidableEq

/-- What the block loop leaves: the number of decoded and free bytes, the code
    and the position in its block. -/
structure DecodeExit where
  mem : Mem Byte
  mlen : Nat
  proc : Nat
  code : Nat
  pos : Nat
  stop : Stop

/-- Store zeros at the first `n` target addresses. -/
def putZeros (m : Mem Byte) (n : Nat) (dst : List Nat) : Mem Byte :=
  (dst.take n).foldl (fun m a => m.set a 0) m

/-- The block loop of `mpt_decode_cobs`.  `dst` and `src` are the addresses of the
    target bytes and of the unread bytes, over all parts of the source.  A round
    takes one source byte: a data byte of the block, or the code behind it. -/
def decodeLoop (v : Variant) (one : Bool) (m : Mem Byte) (dst : List Nat)
    (mlen proc code pos : Nat) : (src : List Nat) → DecodeExit
  | [] => if code = 0 then ⟨m, mlen, proc, code, pos, .done⟩ else ⟨m, mlen, proc, code, pos, .more⟩
  | s :: src =>
      if code = 0 then
        ⟨m, mlen, proc, code, pos, .done⟩
      else if pos < lenData v code then
        if m s = 0 then
          -- inline zero byte
          ⟨m, mlen, proc, code, pos, .missingData⟩
        else if proc = 0 then
          -- no remaining target space
          ⟨m, mlen, proc, code, pos, .more⟩
        else
          decodeLoop v one (m.set (dst.headD 0) (m s)) dst.tail (mlen + 1) proc code (pos + 1) src
      else if one then
        ⟨m, mlen, proc, code, pos, .more⟩
      else
        let next := (m s).toNat
        let zeros := lenData v code + lenZero v code next - pos
        if proc < zeros then
          ⟨putZeros m proc dst, mlen + proc, 0, code, pos + proc, .missingBuffer⟩
        else
          decodeLoop v one (putZeros m zeros dst) (dst.drop zeros) (mlen + zeros)
            (proc - zeros + 1) next 0 src

/-- The distance to the next target address with the largest alignment that the
    remaining size and the free space allow. -/
def alignPost (addr used proc : Nat) : Nat :=
  match [16, 8, 4, 2].find? fun align => align / 2 ≤ used ∧ addr % align ≤ proc with
  | some align => addr % align
  | none => 0

/-- The parts of the source that a call looks at. -/
def sourceParts (source : List Iovec) (sourcelen : Nat) : Message :=
  ⟨0, 0, source.take (if sourcelen = 0 then 1 else sourcelen)⟩

/-- The block loop of `mpt_decode_cobs` with the state it saves: `dst` and `src` are
    the rest of the message at the target and at the unread bytes, `done` is the
    start of the decoded bytes. -/
def decodeBlocks (v : Variant) (dec : DecodeState) (m : Mem Byte) (one : Bool)
    (dst src : Message) (done mlen proc code pos : Nat) :
    DecodeState × Mem Byte × Except Error Nat :=
  let r := decodeLoop v one m dst.bytes mlen proc code pos src.bytes
  let curr := done + r.mlen + r.proc
  match r.stop with
  | .done => (⟨0, curr, done, r.mlen, some r.mlen⟩, r.mem, .ok 1)
  | .more => (⟨cobsState r.code r.pos, curr, dec.pos, r.mlen, dec.msg⟩, r.mem, .ok 0)
  | .missingData =>
      (⟨cobsState r.code r.pos, curr, dec.pos, r.mlen, dec.msg⟩, r.mem, .error .missingData)
  | .missingBuffer =>
      (⟨cobsState r.code r.pos, curr, dec.pos, r.mlen, dec.msg⟩, r.mem, .error .missingBuffer)

/-- `mpt_decode_cobs` after the start of the decoded bytes is settled: `tmp` is what
    follows them, `proc` the free space. -/
def decodeFrom (v : Variant) (dec : DecodeState) (m : Mem Byte) (one : Bool) (tmp : Message)
    (done mlen proc : Nat) : DecodeState × Mem Byte × Except Error Nat :=
  let code := dec.ctx % 0x100
  let pos := dec.ctx % 0x10000 / 0x100
  let (msg, free) := tmp.read proc
  if free.length < proc then
    (dec, m, .error .badArgument)
  else if code = 0 then
    -- finished with complete block or message
    let (msg, first) := msg.read 1
    match first with
    | [] => (dec, m, .ok 0)
    | s :: _ =>
        if m s = 0 then
          -- double or leading zero
          ({ dec with curr := proc + 1 }, m, .error .badValue)
        else
          decodeBlocks v dec m one tmp msg done mlen (proc + 1) (m s).toNat pos
  else
    decodeBlocks v dec m one tmp msg done mlen proc code pos

/-- `mpt_decode_cobs` (`mpt_decode_cobs_zpe`). -/
def decode (v : Variant) (dec : DecodeState) (m : Mem Byte) (source : Option (List Iovec))
    (sourcelen : Nat) : DecodeState × Mem Byte × Except Error Nat :=
  match source with
  | none =>
      if sourcelen = 0 then
        ({ dec with ctx := 0 }, m, .ok 0)
      else
        (dec, m, .ok (maxDec v sourcelen + dec.len))
  | some source =>
      let one := sourcelen = 0
      let dlen := dec.pos + dec.len
      let (tmp, used) := (sourceParts source sourcelen).read dlen
      if dec.curr < dlen ∨ used.length < dlen then
        (dec, m, .error .badArgument)
      else
        let proc := dec.curr - dlen
        if dec.msg ≠ none ∧ one then
          (dec, m, .error .badOperation)
        else
          -- consume previous message
          let msg := dec.msg.getD 0
          let done := dec.pos + msg
          let mlen := dec.len - msg
          let dec := { dec with len := mlen, msg := none }
          if mlen = 0 then
            if one then
              (dec, m, .error .badOperation)
            else
              -- align offset for target data
              let post := alignPost tmp.base tmp.used proc
              let dec := { dec with pos := dlen + post }
              decodeFrom v dec m one (tmp.read post).1 (dlen + post) mlen (proc - post)
          else
            decodeFrom v dec m one tmp done mlen proc

/-- `mpt_decode_cobs_r` (`mpt_decode_cobs_zpe_r`): a delimiter inside a block ends
    the message, with the code as its last byte. -/
def decodeR (v : Variant) (dec : DecodeState) (m : Mem Byte) (source : Option (List Iovec))
    (sourcelen : Nat) : DecodeState × Mem Byte × Except Error Nat :=
  match decode v dec m source sourcelen with
  | (dec, m, .error .missingData) =>
      if dec.ctx = 0 then
        (dec, m, .error .missingData)
      else
        let parts := (source.getD []).take sourcelen
        let tmp := ((⟨0, 0, parts⟩ : Message).read (dec.pos + dec.len)).1
        if tmp.used = 0 then
          (dec, m, .error .missingBuffer)
        else
          (⟨0, dec.curr + 1, dec.pos, dec.len + 1, some (dec.len + 1)⟩,
            m.set tmp.base (.ofNat (dec.ctx % 0x100)), .ok 1)
  | result => result

/-- `mpt_decode_cobs` -/
def decodeCobs := decode .regular

/-- `mpt_decode_cobs_r` -/
def decodeCobsR := decodeR .regular

/-- `mpt_decode_cobs_zpe` -/
def decodeCobsZpe := decode .zpe

/-- `mpt_decode_cobs_zpe_r` -/
def decodeCobsZpeR := decodeR .zpe

namespace Codec

def decoder (c : Codec) :
    DecodeState → Mem Byte → Option (List Iovec) → Nat →
      DecodeState × Mem Byte × Except Error Nat :=
  if c.tail then decodeR c.variant else decode c.variant

theorem decoder_cobs : cobs.decoder = decodeCobs := rfl
theorem decoder_cobsR : cobsR.decoder = decodeCobsR := rfl
theorem decoder_cobsZpe : cobsZpe.decoder = decodeCobsZpe := rfl
theorem decoder_cobsZpeR : cobsZpeR.decoder = decodeCobsZpeR := rfl

end Codec

end Mpt.Cobs
