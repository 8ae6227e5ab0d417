import Mpt.Core

/-! # Integers in storage

The integer types with their sizes and limits, and numbers as the bytes of a word with the
lowest byte first.  Storing a number of a type and loading it again gives the number.
-/

namespace Mpt.Number

inductive IntType where
  | int8 | uint8 | int16 | uint16 | int32 | uint32 | int64 | uint64
  deriving Repr, DecidableEq

namespace IntType

def size : IntType → Nat
  | int8 | uint8 => 1
  | int16 | uint16 => 2
  | int32 | uint32 => 4
  | int64 | uint64 => 8

def min : IntType → Int
  | int8 => -2 ^ 7
  | int16 => -2 ^ 15
  | int32 => -2 ^ 31
  | int64 => -2 ^ 63
  | uint8 | uint16 | uint32 | uint64 => 0

def max : IntType → Int
  | int8 => 2 ^ 7 - 1
  | uint8 => 2 ^ 8 - 1
  | int16 => 2 ^ 15 - 1
  | uint16 => 2 ^ 16 - 1
  | int32 => 2 ^ 31 - 1
  | uint32 => 2 ^ 32 - 1
  | int64 => 2 ^ 63 - 1
  | uint64 => 2 ^ 64 - 1

/-- The values of the type. -/
def Holds (t : IntType) (v : Int) : Prop := t.min ≤ v ∧ v ≤ t.max

instance (t : IntType) (v : Int) : Decidable (t.Holds v) := inferInstanceAs (Decidable (_ ∧ _))

end IntType

/-- The lowest `n` bytes of a number, the lowest first. -/
def bytesOf : (n : Nat) → Int → List Byte
  | 0, _ => []
  | n + 1, v => .ofNat (v % 256).toNat :: bytesOf n (v / 256)

/-- The word that the bytes make. -/
def wordOf : List Byte → Nat
  | [] => 0
  | b :: l => b.toNat + 256 * wordOf l

@[simp] theorem length_bytesOf (n : Nat) (v : Int) : (bytesOf n v).length = n := by
  induction n generalizing v with
  | zero => rfl
  | succ n ih => simp [bytesOf, ih]

theorem wordOf_lt (l : List Byte) : wordOf l < 256 ^ l.length := by
  induction l with
  | nil => simp [wordOf]
  | cons b l ih =>
      have := b.toNat_lt
      simp only [wordOf, List.length_cons, Nat.pow_succ]
      omega

/-- The bytes of a number are the number modulo the size of the word. -/
theorem wordOf_bytesOf (n : Nat) (v : Int) : (wordOf (bytesOf n v) : Int) = v % 256 ^ n := by
  induction n generalizing v with
  | zero => exact (Int.emod_one v).symm
  | succ n ih =>
      have low : (UInt8.ofNat (v % 256).toNat).toNat = (v % 256).toNat := by
        rw [UInt8.toNat_ofNat']
        omega
      have split : v % (256 * 256 ^ n) = v % 256 + 256 * (v / 256 % 256 ^ n) := by
        have positive : (0 : Int) < 256 ^ n := Int.pow_pos (by omega)
        have high := Int.emod_lt_of_pos (v / 256) positive
        have above := Int.emod_nonneg (v / 256) (Int.ne_of_gt positive)
        have parts := Int.emod_add_mul_ediv (v / 256) (256 ^ n)
        apply ((Int.ediv_emod_unique (by omega)).mpr ⟨?_, ?_, ?_⟩).2
        · exact v / 256 / 256 ^ n
        · rw [Int.mul_assoc]
          omega
        · omega
        · omega
      rw [bytesOf, wordOf, low, Int.natCast_add, Int.natCast_mul, ih, Int.pow_succ,
        Int.mul_comm (256 ^ n), split]
      omega

/-- A word of the size of the type as a number of the type. -/
def IntType.ofWord (t : IntType) (w : Nat) : Int :=
  if (w : Int) ≤ t.max then w else (w : Int) - 256 ^ t.size

/-- `*((T *) ptr)` for the bytes found there -/
def load (t : IntType) (l : List Byte) : Int := t.ofWord (wordOf l)

theorem holds_load {t : IntType} (size : l.length = t.size) : t.Holds (load t l) := by
  have bound := wordOf_lt l
  rw [size] at bound
  rw [load]
  generalize wordOf l = w at bound
  cases t <;> simp only [IntType.Holds, IntType.ofWord, IntType.max, IntType.min, IntType.size] at * <;>
    omega

theorem load_bytesOf {t : IntType} (holds : t.Holds v) : load t (bytesOf t.size v) = v := by
  have word := wordOf_bytesOf t.size v
  rw [load]
  generalize wordOf (bytesOf t.size v) = w at word
  cases t <;> simp only [IntType.Holds, IntType.ofWord, IntType.max, IntType.min, IntType.size] at * <;>
    omega

end Mpt.Number
