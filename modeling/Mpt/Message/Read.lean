import Mpt.Core
import Mathlib.Data.List.Nodup

/-! # Messages in several parts

A message is a current part and a list of further parts.  Reading consumes bytes
over the part boundaries; what matters to the consumer is the sequence of the
addresses of its bytes.
-/

namespace Mpt

/-- `struct message`; the number of further parts is the length of `cont`. -/
structure Message where
  base : Nat
  used : Nat
  cont : List Iovec
  deriving Repr, DecidableEq

/-- The addresses of a contiguous range. -/
def addresses (base len : Nat) : List Nat := (List.range len).map (base + ·)

namespace Message

/-- Go on to the next part while the current one is empty. -/
def settle (base used : Nat) : (cont : List Iovec) → Message
  | [] => ⟨base, used, []⟩
  | next :: cont =>
      if used = 0 then settle next.base next.len cont else ⟨base, used, next :: cont⟩

def readParts (base used len : Nat) : (cont : List Iovec) → Message × List Nat
  | [] =>
      if used < len then
        (⟨base + used, 0, []⟩, addresses base used)
      else
        (⟨base + len, used - len, []⟩, addresses base len)
  | next :: cont =>
      if used < len then
        let (msg, rest) := readParts next.base next.len (len - used) cont
        (msg, addresses base used ++ rest)
      else
        (settle (base + len) (used - len) (next :: cont), addresses base len)

/-- `mpt_message_read`: the remaining message and the addresses of the bytes
    consumed.  Their number is the return value. -/
def read (msg : Message) (len : Nat) : Message × List Nat :=
  readParts msg.base msg.used len msg.cont

/-- The addresses of all bytes of the message. -/
def bytes (msg : Message) : List Nat :=
  addresses msg.base msg.used ++ msg.cont.flatMap fun v => addresses v.base v.len

end Message

@[simp] theorem length_addresses (base len : Nat) : (addresses base len).length = len := by
  simp [addresses]

@[simp] theorem addresses_zero (base : Nat) : addresses base 0 = [] := rfl

theorem addresses_add (base n k : Nat) :
    addresses base (n + k) = addresses base n ++ addresses (base + n) k := by
  simp [addresses, List.range_add, Function.comp_def, Nat.add_assoc]

theorem addresses_succ (base n : Nat) : addresses base (n + 1) = base :: addresses (base + 1) n := by
  rw [Nat.add_comm, addresses_add]
  rfl

theorem take_addresses (base n k : Nat) (le : k ≤ n) :
    (addresses base n).take k = addresses base k := by
  obtain ⟨j, rfl⟩ := Nat.exists_eq_add_of_le le
  rw [addresses_add, List.take_left' (by simp)]

theorem drop_addresses (base n k : Nat) (le : k ≤ n) :
    (addresses base n).drop k = addresses (base + k) (n - k) := by
  obtain ⟨j, rfl⟩ := Nat.exists_eq_add_of_le le
  rw [addresses_add, List.drop_left' (by simp), Nat.add_sub_cancel_left]

theorem map_addresses (m : Mem α) (base n : Nat) : (addresses base n).map m = m.read base n := by
  simp [addresses, Mem.read, Function.comp_def]

theorem nodup_addresses (base n : Nat) : (addresses base n).Nodup := by
  refine List.Nodup.map ?_ List.nodup_range
  intro i j eq
  exact Nat.add_left_cancel eq

namespace Message

@[simp] theorem bytes_settle (base used : Nat) (cont : List Iovec) :
    (settle base used cont).bytes = (⟨base, used, cont⟩ : Message).bytes := by
  induction cont generalizing base used with
  | nil => rfl
  | cons next cont ih =>
      unfold settle
      split
      · rename_i empty
        rw [ih, empty]
        simp [bytes]
      · rfl

/-- A part settled on is empty only when nothing is left. -/
theorem settle_used (base used : Nat) (cont : List Iovec) :
    (settle base used cont).used = 0 → (settle base used cont).bytes = [] := by
  induction cont generalizing base used with
  | nil =>
      intro empty
      have : used = 0 := empty
      simp [settle, bytes, this]
  | cons next cont ih =>
      unfold settle
      split
      · exact ih next.base next.len
      · rename_i some
        intro empty
        exact absurd empty some

/-- Reading takes the first bytes, and stops on a part that is not empty unless
    nothing is left. -/
theorem read_spec (msg : Message) (len : Nat) :
    (msg.read len).2 = msg.bytes.take len ∧ (msg.read len).1.bytes = msg.bytes.drop len ∧
      ((msg.read len).1.used = 0 → (msg.read len).1.bytes = []) := by
  obtain ⟨base, used, cont⟩ := msg
  unfold read
  induction cont generalizing base used len with
  | nil =>
      simp only [readParts, bytes, List.flatMap_nil, List.append_nil]
      split
      · rename_i short
        rw [List.take_of_length_le (by simp; omega), List.drop_of_length_le (by simp; omega)]
        simp
      · rename_i enough
        rw [take_addresses _ _ _ (by omega), drop_addresses _ _ _ (by omega)]
        simp_all
  | cons next cont ih =>
      simp only [readParts]
      split
      · rename_i short
        obtain ⟨taken, left, settled⟩ := ih (len - used) next.base next.len
        have whole : (⟨base, used, next :: cont⟩ : Message).bytes =
            addresses base used ++ (⟨next.base, next.len, cont⟩ : Message).bytes := by
          simp [bytes]
        rw [whole, List.take_append, List.drop_append, length_addresses,
          List.take_of_length_le (by simp; omega), List.drop_of_length_le (by simp; omega)]
        exact ⟨by rw [taken], by rw [left]; rfl, settled⟩
      · rename_i enough
        have whole : (⟨base, used, next :: cont⟩ : Message).bytes =
            addresses base used ++ (next :: cont).flatMap fun v => addresses v.base v.len := rfl
        refine ⟨?_, ?_, settle_used _ _ _⟩
        · rw [whole, List.take_append_of_le_length (by simp; omega),
            take_addresses _ _ _ (by omega)]
        · rw [bytes_settle, whole, List.drop_append_of_le_length (by simp; omega),
            drop_addresses _ _ _ (by omega)]
          rfl

/-- The first byte of a message that stopped on a part. -/
theorem base_mem (msg : Message) (some : msg.used ≠ 0) : msg.bytes.head? = Option.some msg.base := by
  obtain ⟨base, used, cont⟩ := msg
  obtain ⟨n, rfl⟩ := Nat.exists_eq_succ_of_ne_zero some
  simp [bytes, addresses_succ]

end Message

end Mpt
