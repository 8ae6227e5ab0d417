import Mpt.Number.Integer
import Mathlib.Tactic.Common

/-! # Conversion between integer types

The eight converters for integer data are tables over the target type.  Source and target are
addresses in one storage, and a write through a null pointer ends the run.
-/

namespace Mpt.Number

/-- How the machine stores an integer as a floating point number. -/
structure Floats where
  float : Int → List Byte
  double : Int → List Byte
  extended : Int → List Byte

/-- `none` when the run ends with an access through a null pointer. -/
abbrev Run := Option (Mem Byte × Except Error Nat)

/-- `mpt_type_int` -/
def typeInt : (len : Nat) → Char
  | 1 => 'b'
  | 2 => 'n'
  | 4 => 'i'
  | 8 => 'x'
  | _ => '\x00'

def sizeofLong : Nat := 8

/-- `isgraph` of the C locale -/
def isgraph (val : Int) : Bool := 0x21 ≤ val ∧ val ≤ 0x7e

/-- `val = 0; if (from) val = *from` -/
def value (t : IntType) (m : Mem Byte) : Option Nat → Int
  | none => 0
  | some src => load t (m.read src t.size)

/-- `if (dest) *dest = ..` followed by the returned size -/
def put (m : Mem Byte) (dest : Option Nat) (bytes : List Byte) (size : Nat) : Run :=
  match dest with
  | none => some (m, .ok size)
  | some a => some (m.write a bytes, .ok size)

/-- `*dest = ..` followed by the returned size -/
def putUnchecked (m : Mem Byte) (dest : Option Nat) (bytes : List Byte) (size : Nat) : Run :=
  match dest with
  | none => none
  | some a => some (m.write a bytes, .ok size)

/-- The vector target: `struct iovec` of the source value. -/
def putVector (m : Mem Byte) (src dest : Option Nat) (size : Nat) : Run :=
  match dest with
  | none => some (m, .error .missingData)
  | some a => some (m.write a (bytesOf 8 (src.getD 0) ++ bytesOf 8 size), .ok 16)

/-- `if (bad) return MPT_ERROR(BadValue)` in front of a case -/
def rejecting (bad : Prop) [Decidable bad] (m : Mem Byte) (next : Run) : Run :=
  if bad then some (m, .error .badValue) else next

section

variable (F : Floats) (src dest : Option Nat) (m : Mem Byte)

/-- `if (type == 'l') type = mpt_type_int(sizeof(long))` -/
def longType (type : Char) : Char := if type = 'l' then typeInt sizeofLong else type

/-- `mpt_data_convert_int8` -/
def dataConvertInt8 (type : Char) : Run :=
  let val := value .int8 m src
  match longType type with
  | 'c' => rejecting (isgraph val = false) m (put m dest (bytesOf 1 val) 1)
  | 'y' => rejecting (val < 0) m (put m dest (bytesOf 1 val) 1)
  | 'b' => put m dest (bytesOf 1 val) 1
  | 'q' => rejecting (val < 0) m (put m dest (bytesOf 2 val) 2)
  | 'n' => put m dest (bytesOf 2 val) 2
  | 'u' => rejecting (val < 0) m (put m dest (bytesOf 4 val) 4)
  | 'i' => put m dest (bytesOf 4 val) 4
  | 't' => rejecting (val < 0) m (put m dest (bytesOf 8 val) 8)
  | 'x' => put m dest (bytesOf 8 val) 8
  | 'f' => put m dest (F.float val) 4
  | 'd' => put m dest (F.double val) 8
  | 'e' => put m dest (F.extended val) 16
  | 'B' => putVector m src dest 1
  | _ => some (m, .error .badType)

/-- `mpt_data_convert_uint8` -/
def dataConvertUint8 (type : Char) : Run :=
  let val := value .uint8 m src
  match longType type with
  | 'c' => rejecting (isgraph val = false) m (put m dest (bytesOf 1 val) 1)
  | 'b' => rejecting (IntType.int8.max < val) m (put m dest (bytesOf 1 val) 1)
  | 'y' => put m dest (bytesOf 1 val) 1
  | 'n' => put m dest (bytesOf 2 val) 2
  | 'q' => put m dest (bytesOf 2 val) 2
  -- no look at the pointer here
  | 'i' => putUnchecked m dest (bytesOf 4 val) 4
  | 'u' => putUnchecked m dest (bytesOf 4 val) 4
  | 'x' => putUnchecked m dest (bytesOf 8 val) 8
  | 't' => putUnchecked m dest (bytesOf 8 val) 8
  | 'f' => put m dest (F.float val) 4
  | 'd' => put m dest (F.double val) 8
  | 'e' => put m dest (F.extended val) 8
  | 'Y' => putVector m src dest 1
  | _ => some (m, .error .badType)

/-- `mpt_data_convert_int16` -/
def dataConvertInt16 (type : Char) : Run :=
  let val := value .int16 m src
  match longType type with
  | 'c' => rejecting (isgraph val = false) m (put m dest (bytesOf 1 val) 1)
  | 'b' => rejecting (val < IntType.int8.min ∨ IntType.int8.max < val) m (put m dest (bytesOf 1 val) 1)
  | 'y' => rejecting (val < 0 ∨ IntType.uint8.max < val) m (put m dest (bytesOf 1 val) 1)
  | 'q' => rejecting (val < 0) m (put m dest (bytesOf 2 val) 2)
  | 'n' => put m dest (bytesOf 2 val) 2
  | 'u' => rejecting (val < 0) m (put m dest (bytesOf 4 val) 4)
  | 'i' => put m dest (bytesOf 4 val) 4
  | 't' => rejecting (val < 0) m (put m dest (bytesOf 8 val) 8)
  | 'x' => put m dest (bytesOf 8 val) 8
  | 'f' => put m dest (F.float val) 8
  | 'd' => put m dest (F.double val) 8
  | 'e' => put m dest (F.extended val) 16
  | 'N' => putVector m src dest 2
  | _ => some (m, .error .badType)

/-- `mpt_data_convert_uint16` -/
def dataConvertUint16 (type : Char) : Run :=
  let val := value .uint16 m src
  match longType type with
  | 'c' => rejecting (isgraph val = false) m (put m dest (bytesOf 1 val) 1)
  | 'b' => rejecting (IntType.int8.max < val) m (put m dest (bytesOf 1 val) 1)
  | 'y' => rejecting (IntType.uint8.max < val) m (put m dest (bytesOf 1 val) 1)
  -- the source has this code for the 16 bit target
  | 'h' => rejecting (IntType.int16.max < val) m (put m dest (bytesOf 2 val) 2)
  | 'q' => put m dest (bytesOf 2 val) 2
  | 'u' => put m dest (bytesOf 4 val) 4
  | 'i' => put m dest (bytesOf 4 val) 4
  | 't' => put m dest (bytesOf 8 val) 8
  | 'x' => put m dest (bytesOf 8 val) 8
  | 'f' => put m dest (F.float val) 4
  | 'd' => put m dest (F.double val) 8
  | 'e' => putUnchecked m dest (F.extended val) 16
  | 'Q' => (putVector m src dest 2).map fun r => (r.1, .error .missingData)
  | _ => some (m, .error .badType)

/-- `mpt_data_convert_int32` -/
def dataConvertInt32 (type : Char) : Run :=
  let val := value .int32 m src
  match longType type with
  | 'c' => rejecting (isgraph val = false) m (put m dest (bytesOf 1 val) 1)
  | 'b' => rejecting (val < IntType.int8.min ∨ IntType.int8.max < val) m (put m dest (bytesOf 1 val) 1)
  | 'y' => rejecting (val < 0 ∨ IntType.uint8.max < val) m (put m dest (bytesOf 1 val) 1)
  | 'n' => rejecting (val < IntType.int16.min ∨ IntType.int16.max < val) m (put m dest (bytesOf 2 val) 2)
  | 'q' => rejecting (val < 0 ∨ IntType.uint16.max < val) m (put m dest (bytesOf 2 val) 2)
  | 'u' => rejecting (val < 0) m (put m dest (bytesOf 4 val) 4)
  | 'i' => put m dest (bytesOf 4 val) 4
  | 't' => rejecting (val < 0) m (put m dest (bytesOf 8 val) 8)
  | 'x' => put m dest (bytesOf 8 val) 8
  | 'f' => put m dest (F.float val) 4
  | 'd' => put m dest (F.double val) 8
  | 'e' => put m dest (F.extended val) 16
  | 'I' => putVector m src dest 4
  | _ => some (m, .error .badType)

/-- `mpt_data_convert_uint32` -/
def dataConvertUint32 (type : Char) : Run :=
  let val := value .uint32 m src
  match longType type with
  | 'c' => rejecting (isgraph val = false) m (put m dest (bytesOf 1 val) 1)
  | 'b' => rejecting (IntType.int8.max < val) m (put m dest (bytesOf 1 val) 1)
  | 'y' => rejecting (IntType.uint8.max < val) m (put m dest (bytesOf 1 val) 1)
  | 'n' => rejecting (IntType.int16.max < val) m (put m dest (bytesOf 2 val) 2)
  | 'q' => rejecting (IntType.uint16.max < val) m (put m dest (bytesOf 2 val) 2)
  | 'i' => rejecting (IntType.int32.max < val) m (put m dest (bytesOf 4 val) 4)
  | 'u' => put m dest (bytesOf 4 val) 4
  | 't' => put m dest (bytesOf 8 val) 8
  | 'x' => put m dest (bytesOf 8 val) 8
  | 'f' => put m dest (F.float val) 4
  | 'd' => put m dest (F.double val) 8
  | 'e' => put m dest (F.extended val) 16
  | 'U' => putVector m src dest 4
  | _ => some (m, .error .badType)

/-- `mpt_data_convert_int64` -/
def dataConvertInt64 (type : Char) : Run :=
  let val := value .int64 m src
  match longType type with
  | 'c' => rejecting (isgraph val = false) m (put m dest (bytesOf 1 val) 1)
  | 'b' => rejecting (val < IntType.int8.min ∨ IntType.int8.max < val) m (put m dest (bytesOf 1 val) 1)
  | 'y' => rejecting (val < 0 ∨ IntType.uint8.max < val) m (put m dest (bytesOf 1 val) 1)
  | 'n' => rejecting (val < IntType.int16.min ∨ IntType.int16.max < val) m (put m dest (bytesOf 2 val) 2)
  | 'q' => rejecting (val < 0 ∨ IntType.uint16.max < val) m (put m dest (bytesOf 2 val) 2)
  | 'i' => rejecting (val < IntType.int32.min ∨ IntType.int32.max < val) m (put m dest (bytesOf 4 val) 4)
  | 'u' => rejecting (val < 0 ∨ IntType.uint32.max < val) m (put m dest (bytesOf 4 val) 4)
  | 't' => rejecting (val < 0) m (put m dest (bytesOf 8 val) 8)
  | 'x' => put m dest (bytesOf 8 val) 8
  | 'f' => put m dest (F.float val) 4
  | 'd' => put m dest (F.double val) 8
  | 'e' => put m dest (F.extended val) 16
  | 'X' => putVector m src dest 8
  | _ => some (m, .error .badType)

/-- `mpt_data_convert_uint64` -/
def dataConvertUint64 (type : Char) : Run :=
  let val := value .uint64 m src
  match longType type with
  | 'c' => rejecting (isgraph val = false) m (put m dest (bytesOf 1 val) 1)
  | 'b' => rejecting (IntType.int8.max < val) m (put m dest (bytesOf 1 val) 1)
  | 'y' => rejecting (IntType.uint8.max < val) m (put m dest (bytesOf 1 val) 1)
  | 'n' => rejecting (IntType.int16.max < val) m (put m dest (bytesOf 2 val) 2)
  | 'q' => rejecting (IntType.uint16.max < val) m (put m dest (bytesOf 2 val) 2)
  | 'i' => rejecting (IntType.int32.max < val) m (put m dest (bytesOf 4 val) 4)
  | 'u' => rejecting (IntType.uint32.max < val) m (put m dest (bytesOf 4 val) 4)
  | 'x' => rejecting (IntType.int64.max < val) m (put m dest (bytesOf 8 val) 8)
  | 't' => put m dest (bytesOf 8 val) 8
  | 'f' => put m dest (F.float val) 4
  | 'd' => put m dest (F.double val) 8
  | 'e' => put m dest (F.extended val) 16
  | 'T' => putVector m src dest 8
  | _ => some (m, .error .badType)

/-- The converter for a source type. -/
def dataConvert : IntType → (type : Char) → Run
  | .int8 => dataConvertInt8 F src dest m
  | .uint8 => dataConvertUint8 F src dest m
  | .int16 => dataConvertInt16 F src dest m
  | .uint16 => dataConvertUint16 F src dest m
  | .int32 => dataConvertInt32 F src dest m
  | .uint32 => dataConvertUint32 F src dest m
  | .int64 => dataConvertInt64 F src dest m
  | .uint64 => dataConvertUint64 F src dest m

end

/-- The integer type of a target code. -/
def target : Char → Option IntType
  | 'b' => some .int8
  | 'y' => some .uint8
  | 'n' => some .int16
  | 'q' => some .uint16
  | 'i' => some .int32
  | 'u' => some .uint32
  | 'x' | 'l' => some .int64
  | 't' => some .uint64
  | _ => none


/-- What a table is to do with the value `val`. -/
def converted (t : IntType) (val : Int) (dest : Option Nat) (m : Mem Byte) : Run :=
  if t.Holds val then put m dest (bytesOf t.size val) t.size else some (m, .error .badValue)

/-- The four targets of `mpt_data_convert_uint8` that are written without a look at the pointer. -/
def Unchecked (s : IntType) (type : Char) (dest : Option Nat) : Prop :=
  s = .uint8 ∧ type ∈ ['i', 'u', 'x', 't', 'l'] ∧ dest = none

/-- The target that `mpt_data_convert_uint16` does not know. -/
def Unlisted (s : IntType) (type : Char) : Prop := s = .uint16 ∧ type = 'n'

theorem holds_value (t : IntType) (m : Mem Byte) (src : Option Nat) : t.Holds (value t m src) := by
  cases src with
  | none => cases t <;> simp [value, IntType.Holds, IntType.min, IntType.max]
  | some a => exact holds_load (Mem.length_read m a t.size)

theorem rejecting_put {bad : Prop} [Decidable bad] (size : t.size = n) (out : bad ↔ ¬ t.Holds val) :
    rejecting bad m (put m dest (bytesOf n val) n) = converted t val dest m := by
  subst size
  unfold rejecting converted
  split
  · rw [if_neg (out.mp ‹_›)]
  · rw [if_pos (Decidable.not_not.mp (mt out.mpr ‹_›))]

theorem put_eq (size : t.size = n) (holds : t.Holds val) :
    put m dest (bytesOf n val) n = converted t val dest m := by
  subst size
  exact (if_pos holds).symm

theorem target_cases (h : target type = some t) :
    (type = 'b' ∧ t = .int8) ∨ (type = 'y' ∧ t = .uint8) ∨ (type = 'n' ∧ t = .int16) ∨
    (type = 'q' ∧ t = .uint16) ∨ (type = 'i' ∧ t = .int32) ∨ (type = 'u' ∧ t = .uint32) ∨
    (type = 'x' ∧ t = .int64) ∨ (type = 'l' ∧ t = .int64) ∨ (type = 't' ∧ t = .uint64) := by
  unfold target at h
  split at h <;> simp_all

theorem putUnchecked_eq (given : dest ≠ none) :
    putUnchecked m dest bytes size = put m dest bytes size := by
  cases dest with
  | none => contradiction
  | some a => rfl

/-- All rows of the eight tables but the few that are missed. -/
theorem dataConvert_eq (F : Floats) (src dest : Option Nat) (m : Mem Byte)
    (h : target type = some t) (checked : ¬ Unchecked s type dest) (listed : ¬ Unlisted s type) :
    dataConvert F src dest m s type = converted t (value s m src) dest m := by
  have holds := holds_value s m src
  cases s <;>
    simp only [dataConvert, dataConvertInt8, dataConvertUint8, dataConvertInt16, dataConvertUint16,
      dataConvertInt32, dataConvertUint32, dataConvertInt64, dataConvertUint64]
  all_goals
    generalize value _ m src = val at *
    simp only [IntType.Holds, IntType.min, IntType.max] at holds
    rcases target_cases h with h | h | h | h | h | h | h | h | h <;> obtain ⟨rfl, rfl⟩ := h
  all_goals
    simp only [longType, typeInt, sizeofLong, Char.reduceEq, reduceIte]
    first
    | refine rejecting_put rfl ?_
      simp only [IntType.Holds, IntType.min, IntType.max]
      omega
    | refine put_eq rfl ?_
      simp only [IntType.Holds, IntType.min, IntType.max]
      omega
    | rw [putUnchecked_eq (by simpa [Unchecked] using checked)]
      refine put_eq rfl ?_
      simp only [IntType.Holds, IntType.min, IntType.max]
      omega
    | exact absurd ⟨rfl, rfl⟩ listed

theorem dataConvert_unchecked (F : Floats) (src : Option Nat) (m : Mem Byte)
    (h : Unchecked s type dest) : dataConvert F src dest m s type = none := by
  obtain ⟨rfl, type, rfl⟩ := h
  simp only [List.mem_cons, List.not_mem_nil, or_false] at type
  rcases type with rfl | rfl | rfl | rfl | rfl <;> rfl

theorem dataConvert_unlisted (F : Floats) (src dest : Option Nat) (m : Mem Byte)
    (h : Unlisted s type) : dataConvert F src dest m s type = some (m, .error .badType) := by
  obtain ⟨rfl, rfl⟩ := h
  rfl

/-- The target has the value `val` of type `t`, and nothing else is changed. -/
structure Stored (t : IntType) (val : Int) (dest : Option Nat) (m m' : Mem Byte) : Prop where
  same : ∀ a, dest = some a → value t m' (some a) = val
  outside : ∀ a i, dest = some a → i < a ∨ a + t.size ≤ i → m' i = m i
  null : dest = none → m' = m

/-- A conversion that succeeds exactly for the values of the target type. -/
structure Converts (F : Floats) (s : IntType) (type : Char) (t : IntType) (src dest : Option Nat)
    (m : Mem Byte) : Prop where
  holds : t.Holds (value s m src) →
    ∃ m', dataConvert F src dest m s type = some (m', .ok t.size) ∧
      Stored t (value s m src) dest m m'
  fails : ¬ t.Holds (value s m src) →
    ∃ e, dataConvert F src dest m s type = some (m, .error e)

theorem put_stored {t : IntType} (holds : t.Holds val) (dest : Option Nat) (m : Mem Byte) :
    ∃ m', put m dest (bytesOf t.size val) t.size = some (m', .ok t.size) ∧ Stored t val dest m m' := by
  cases dest with
  | none => exact ⟨m, rfl, by simp, by simp, fun _ => rfl⟩
  | some a =>
      refine ⟨m.write a (bytesOf t.size val), rfl, ?_, ?_, by simp⟩
      · rintro _ ⟨⟩
        have back := Mem.read_write_self m a (bytesOf t.size val)
        rw [length_bytesOf] at back
        rw [value, back, load_bytesOf holds]
      · rintro _ i ⟨⟩ out
        apply Mem.write_outside
        rwa [length_bytesOf]

theorem converts_eq {F : Floats}
    (h : dataConvert F src dest m s type = converted t (value s m src) dest m) :
    Converts F s type t src dest m where
  holds holds := by
    rw [h, converted, if_pos holds]
    exact put_stored holds dest m
  fails out := ⟨.badValue, by rw [h, converted, if_neg out]⟩

/-- Conversions of the value at `a`, each to the next address with its own target code. -/
def convertPath (F : Floats) : (s : IntType) → (a : Nat) → List (Char × Nat) → Mem Byte →
    Option (IntType × Nat × Mem Byte)
  | s, a, [], m => some (s, a, m)
  | s, a, (type, b) :: path, m =>
      match target type, dataConvert F (some a) (some b) m s type with
      | some t, some (m', .ok _) => convertPath F t b path m'
      | _, _ => none

/-- Every type on the way has the value, and no step asks for the target that is not known. -/
def Passable (val : Int) : IntType → List (Char × Nat) → Prop
  | _, [] => True
  | s, (type, _) :: path =>
      ¬ Unlisted s type ∧ ∃ t, target type = some t ∧ t.Holds val ∧ Passable val t path

/-- The type at the end of the way. -/
def lastType : IntType → List (Char × Nat) → Option IntType
  | s, [] => some s
  | _, (type, _) :: path => (target type).bind fun t => lastType t path

theorem convertPath_cons {F : Floats} (h : target type = some t) (holds : t.Holds (value s m (some a)))
    (listed : ¬ Unlisted s type) (path : List (Char × Nat)) :
    ∃ m', value t m' (some b) = value s m (some a) ∧
      dataConvert F (some a) (some b) m s type = some (m', .ok t.size) ∧
      convertPath F s a ((type, b) :: path) m = convertPath F t b path m' := by
  have row := dataConvert_eq F (some a) (some b) m h (by simp [Unchecked]) listed
  obtain ⟨m', done, stored⟩ := (converts_eq row).holds holds
  refine ⟨m', stored.same b rfl, done, ?_⟩
  rw [convertPath, h, done]

/-- A value that all types on the way have arrives unchanged. -/
theorem convertPath_value (F : Floats) (s : IntType) (a : Nat) (path : List (Char × Nat))
    (m : Mem Byte) (pass : Passable (value s m (some a)) s path) :
    ∃ t b m', lastType s path = some t ∧ convertPath F s a path m = some (t, b, m') ∧
      value t m' (some b) = value s m (some a) := by
  induction path generalizing s a m with
  | nil => exact ⟨s, a, m, rfl, rfl, rfl⟩
  | cons step path ih =>
      obtain ⟨type, b⟩ := step
      obtain ⟨listed, t, known, holds, pass⟩ := pass
      obtain ⟨m', kept, -, next⟩ := convertPath_cons (F := F) (b := b) known holds listed path
      rw [← kept] at pass
      obtain ⟨t', b', m'', last, done, same⟩ := ih t b m' pass
      refine ⟨t', b', m'', ?_, next.trans done, same.trans kept⟩
      rw [lastType, known, Option.bind_some, last]

/-- The conversions preserve values, with the exception of the targets that
    `mpt_data_convert_uint8` writes without a look at the pointer and of the one that
    `mpt_data_convert_uint16` does not know. -/
theorem dataConvert_preserves (F : Floats) :
    (∀ s type t src dest m, target type = some t →
      (Converts F s type t src dest m ↔
        ¬ Unchecked s type dest ∧ ¬ (Unlisted s type ∧ IntType.int16.Holds (value s m src)))) ∧
    (∀ s t c c' a b m, target c = some t → target c' = some s →
      (∀ v, s.Holds v → t.Holds v) →
      ∃ m' m'', dataConvert F (some a) (some b) m s c = some (m', .ok t.size) ∧
        dataConvert F (some b) (some a) m' t c' = some (m'', .ok s.size) ∧
        value s m'' (some a) = value s m (some a)) ∧
    (∀ s a path m, Passable (value s m (some a)) s path →
      ∃ t b m', lastType s path = some t ∧ convertPath F s a path m = some (t, b, m') ∧
        value t m' (some b) = value s m (some a)) := by
  refine ⟨?_, ?_, fun s a path m => convertPath_value F s a path m⟩
  · intro s type t src dest m known
    constructor
    · intro converts
      constructor
      · intro unchecked
        have crash := dataConvert_unchecked F src m unchecked
        by_cases holds : t.Holds (value s m src)
        · obtain ⟨m', done, -⟩ := converts.holds holds
          simp [crash] at done
        · obtain ⟨e, failed⟩ := converts.fails holds
          simp [crash] at failed
      · rintro ⟨unlisted, holds⟩
        obtain ⟨rfl, rfl⟩ := unlisted
        cases known
        obtain ⟨m', done, -⟩ := converts.holds holds
        rw [dataConvert_unlisted F src dest m ⟨rfl, rfl⟩] at done
        cases done
    · rintro ⟨checked, listed⟩
      by_cases unlisted : Unlisted s type
      · have failed := dataConvert_unlisted F src dest m unlisted
        obtain ⟨rfl, rfl⟩ := unlisted
        cases known
        exact ⟨fun holds => absurd ⟨⟨rfl, rfl⟩, holds⟩ listed, fun _ => ⟨_, failed⟩⟩
      · exact converts_eq (dataConvert_eq F src dest m known checked unlisted)
  · intro s t c c' a b m known back wider
    have fits := holds_value s m (some a)
    have unlisted : ¬ Unlisted s c := by
      rintro ⟨rfl, rfl⟩
      cases known
      exact absurd (wider (2 ^ 15) (by decide)) (by decide)
    have unlisted' : ¬ Unlisted t c' := by
      rintro ⟨rfl, rfl⟩
      cases back
      exact absurd (wider (-1) (by decide)) (by decide)
    obtain ⟨m', kept, done, -⟩ :=
      convertPath_cons (F := F) (b := b) known (wider _ fits) unlisted []
    rw [← kept] at fits
    obtain ⟨m'', kept', done', -⟩ :=
      convertPath_cons (F := F) (b := a) back fits unlisted' []
    exact ⟨m', m'', done, done', kept'.trans kept⟩

theorem null_target_written :
    ¬ ∀ F s type t src dest m, target type = some t → Converts F s type t src dest m := by
  intro all
  obtain ⟨m', done, -⟩ := (all ⟨fun _ => [], fun _ => [], fun _ => []⟩ .uint8 'i' .int32 (some 0) none
    (fun _ => 7) rfl).holds (by decide)
  cases done

end Mpt.Number
