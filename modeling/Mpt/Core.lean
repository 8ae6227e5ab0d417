import Mpt.Memory

/-! # Basic types of the core library

Error codes, byte ranges handed to the library (`data` pointer and length) and
the state records of encoders and decoders.  Sizes are natural numbers: every
`size_t` of the modelled code counts bytes of one existing allocation.
-/

namespace Mpt

/-- One byte of storage (`uint8_t`). -/
abbrev Byte := UInt8

/-- The negative return codes of the library. -/
inductive Error where
  | badArgument
  | badValue
  | badType
  | badOperation
  | badEncoding
  | missingData
  | missingBuffer
  deriving Repr, DecidableEq

/-- A `data`/`len` argument pair.  A null pointer stands for zero bytes. -/
inductive Data where
  | null (len : Nat)
  | bytes (content : List Byte)
  deriving Repr, DecidableEq

namespace Data

def len : Data → Nat
  | null n => n
  | bytes l => l.length

/-- The bytes a consumer stores for this argument. -/
def content : Data → List Byte
  | null n => List.replicate n 0
  | bytes l => l

@[simp] theorem length_content (d : Data) : d.content.length = d.len := by
  cases d <;> simp [content, len]

end Data

/-- `struct iovec`: a range of storage.  A null pointer is the address 0. -/
structure Iovec where
  base : Nat
  len : Nat
  deriving Repr, DecidableEq

/-- `struct encode_state`: finished size, size of the open part and the private
    counter `_ctx`. -/
structure EncodeState where
  ctx : Nat
  done : Nat
  scratch : Nat
  deriving Repr, DecidableEq

/-- `MPT_ENCODE_INIT` -/
def EncodeState.init : EncodeState := ⟨0, 0, 0⟩

/-- `mpt_data_encoder_t` -/
abbrev Encoder :=
  EncodeState → Mem Byte → Option Iovec → Option Data → EncodeState × Mem Byte × Except Error Nat

/-- `struct decode_state`.  `msg` is negative while no message is complete. -/
structure DecodeState where
  ctx : Nat
  curr : Nat
  pos : Nat
  len : Nat
  msg : Option Nat
  deriving Repr, DecidableEq

/-- `MPT_DECODE_INIT` -/
def DecodeState.init : DecodeState := ⟨0, 0, 0, 0, none⟩

/-- `mpt_data_decoder_t` -/
abbrev Decoder :=
  DecodeState → Mem Byte → Option (List Iovec) → Nat → DecodeState × Mem Byte × Except Error Nat

end Mpt
