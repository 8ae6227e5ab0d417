import Mpt.Convert.Blocks

/-! # The COBS encoders

`mpt_encode_cobs` and `mpt_encode_cobs_r` for both members of the family, as
they work on a target range: `info.done` bytes are finished, the next
`info.scratch` bytes are the open block, of which the first is its code.
-/

namespace Mpt.Cobs

/-- What the block loop leaves: the storage, the code of the open block, the
    unused target space and the number of unread source bytes. -/
structure EncodeExit where
  mem : Mem Byte
  code : Nat
  left : Nat
  len : Nat

/-- The block loop of `mpt_encode_cobs`; `dst` is the next target address, the
    open block starts at `dst - code`.  The test for a full target is made where
    the next round begins. -/
def encodeLoop (v : Variant) (m : Mem Byte) (dst code left : Nat) : List Byte → EncodeExit
  | [] => ⟨m.set (dst - code) (.ofNat code), code, left, 0⟩
  | curr :: src =>
      if left = 0 then
        ⟨m.set (dst - code) (.ofNat code), code, left, src.length + 1⟩
      else if curr = 0 then
        match src with
        | [] => encodeLoop v (m.set (dst - code) (.ofNat code)) (dst + 1) 1 (left - 1) []
        | next :: rest =>
            if v.pairs = true ∧ 1 < code ∧ code < 32 ∧ next = 0 then
              encodeLoop v (m.set (dst - code) (.ofNat (code + v.maxlen))) (dst + 1) 1 (left - 1)
                rest
            else
              encodeLoop v (m.set (dst - code) (.ofNat code)) (dst + 1) 1 (left - 1)
                (next :: rest)
      else if code + 1 = v.maxlen then
        if left - 1 = 0 then
          -- unable to save continuation state
          ⟨(m.set dst curr).set (dst - code) (.ofNat code), code, left - 1, src.length + 1⟩
        else
          encodeLoop v ((m.set dst curr).set (dst - code) (.ofNat (code + 1))) (dst + 2) 1
            (left - 2) src
      else
        encodeLoop v (m.set dst curr) (dst + 1) (code + 1) (left - 1) src

/-- `mpt_memrchr` on a single range: the last position of a byte. -/
def memrchr (m : Mem Byte) (base : Nat) (tok : Byte) : (len : Nat) → Option Nat
  | 0 => none
  | len + 1 => if m (base + len) = tok then some len else memrchr m base tok len

/-- The search for the end of a previous message when data is deleted.  The
    range searched is the one the code passes: it starts at the null source. -/
def deleteLoop (m : Mem Byte) (pos : Nat) : (count : Nat) → Option Nat
  | 0 => some pos
  | count + 1 =>
      match memrchr m 0 0 pos with
      | none => none
      | some pos => deleteLoop m pos count

/-- `mpt_encode_cobs` (`mpt_encode_cobs_zpe`).  Without a source the message is
    terminated, without a target the state is reset. -/
def encode (v : Variant) (info : EncodeState) (m : Mem Byte) (cobs : Option Iovec)
    (base : Option Data) : EncodeState × Mem Byte × Except Error Nat :=
  match cobs with
  | none => (.init, m, .ok 0)
  | some cobs =>
      let code := info.scratch % 256
      let left := cobs.len - info.done
      let dst := cobs.base + info.done
      if cobs.base = 0 then
        if code ≠ 0 ∨ info.done ≠ 0 ∨ cobs.len ≠ 0 then
          (info, m, .error .badArgument)
        else
          (info, m, .error .missingBuffer)
      else if cobs.len < info.done ∨ left < code then
        (info, m, .error .badArgument)
      else
        match base with
        | none =>
            if left ≤ code then
              (info, m, .error .missingBuffer)
            else if code = 0 then
              if left < 2 then
                (info, m, .error .missingBuffer)
              else
                -- the finished size is replaced, not extended
                (⟨0, 2, 0⟩, (m.set dst 1).set (dst + 1) 0, .ok 0)
            else
              (⟨0, info.done + (code + 1), 0⟩, (m.set dst (.ofNat code)).set (dst + code) 0,
                .ok 0)
        | some (.null len) =>
            if len = 0 then
              (info, m, .error .badValue)
            else
              match deleteLoop m info.done (if info.ctx ≠ 0 then len - 1 else len) with
              | none => (info, m, .error .badValue)
              | some pos => (⟨0, pos, 0⟩, m, .ok pos)
        | some (.bytes src) =>
            let code' := if code = 0 then 1 else code
            if src.length = 0 then
              (info, m, .error .badValue)
            else if left ≤ code' then
              (info, m, .error .missingBuffer)
            else
              let r := encodeLoop v m (dst + code') code' (left - code') src
              let used := cobs.len - r.left
              (⟨info.ctx + (used - info.done - info.scratch), used - r.code, r.code⟩, r.mem,
                .ok (src.length - r.len))

/-- `mpt_encode_cobs_r` (`mpt_encode_cobs_zpe_r`): a message may end with its
    last data byte in the place of the code. -/
def encodeR (v : Variant) (info : EncodeState) (m : Mem Byte) (cobs : Option Iovec)
    (base : Option Data) : EncodeState × Mem Byte × Except Error Nat :=
  match cobs, base with
  | some cobs, none =>
      let code := info.scratch
      let dst := cobs.base + info.done
      if code = 0 then
        encode v info m (some cobs) none
      else if cobs.len < info.done ∨ cobs.base = 0 then
        (info, m, .error .badArgument)
      else
        let last := m (dst + code - 1)
        if 1 < code ∧ code < last.toNat ∧ code ≤ v.maxlen ∧ last.toNat ≤ v.maxlen then
          (⟨0, info.done + code, 0⟩, (m.set dst last).set (dst + (code - 1)) 0, .ok 0)
        else if cobs.len ≤ info.done then
          (info, m, .error .badValue)
        else
          (⟨0, info.done + (code + 1), 0⟩, (m.set dst (.ofNat code)).set (dst + code) 0, .ok 0)
  | cobs, base => encode v info m cobs base

/-- `mpt_encode_cobs` -/
def encodeCobs := encode .regular

/-- `mpt_encode_cobs_r` -/
def encodeCobsR := encodeR .regular

/-- `mpt_encode_cobs_zpe` -/
def encodeCobsZpe := encode .zpe

/-- `mpt_encode_cobs_zpe_r` -/
def encodeCobsZpeR := encodeR .zpe

/-- The choice of an encoder and the decoder that goes with it. -/
structure Codec where
  variant : Variant
  tail : Bool

namespace Codec

def cobs : Codec := ⟨.regular, false⟩
def cobsR : Codec := ⟨.regular, true⟩
def cobsZpe : Codec := ⟨.zpe, false⟩
def cobsZpeR : Codec := ⟨.zpe, true⟩

def encoder (c : Codec) :
    EncodeState → Mem Byte → Option Iovec → Option Data →
      EncodeState × Mem Byte × Except Error Nat :=
  if c.tail then encodeR c.variant else encode c.variant

theorem encoder_cobs : cobs.encoder = encodeCobs := rfl
theorem encoder_cobsR : cobsR.encoder = encodeCobsR := rfl
theorem encoder_cobsZpe : cobsZpe.encoder = encodeCobsZpe := rfl
theorem encoder_cobsZpeR : cobsZpeR.encoder = encodeCobsZpeR := rfl

end Codec

end Mpt.Cobs
