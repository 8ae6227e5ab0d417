import Mpt.Core
import Mathlib.Tactic.IntervalCases

/-! # Message ids

A message starts with its id in a fixed number of bytes, the highest first.  The
top bit of the first byte marks a reply.
-/

namespace Mpt.Message

/-- The loop of `mpt_message_id2buf` over the bytes before the last one. -/
def id2bufLoop (m : Mem Byte) (buf : Nat) (id : UInt64) (used : Nat) :
    (len : Nat) → Mem Byte × UInt64 × Nat
  | 0 => (m, id, used)
  | len + 1 =>
      let id := id / 0x100
      id2bufLoop (m.set (buf + len) (id &&& 0xff).toUInt8) buf id
        (if id ≠ 0 then used + 1 else used) len

/-- `mpt_message_id2buf` -/
def id2buf (id : UInt64) (m : Mem Byte) (buf : Nat) : (len : Nat) → Mem Byte × Except Error Nat
  | 0 => (m, if id ≠ 0 then .error .missingBuffer else .ok 0)
  | len + 1 =>
      let (m, id, used) :=
        id2bufLoop (m.set (buf + len) (id &&& 0xff).toUInt8) buf id 1 len
      if id ≠ 0 then
        (m, .error .missingBuffer)
      else if m buf &&& 0x80 ≠ 0 then
        (m, .error .badValue)
      else
        (m, .ok used)

/-- What `mpt_message_buf2id` leaves: the value at its target, if it is set, the number
    of bytes it has read, and its result. -/
structure IdRead where
  stored : Option UInt64
  seen : Nat
  ret : Except Error Nat

/-- `mpt_message_buf2id`.  The loop condition is true exactly when the length is
    counted down to zero: for one byte there is one round, which reads the byte
    behind it, and for more there is none. -/
def buf2id (m : Mem Byte) (buf : Nat) (len : Nat) : IdRead :=
  if len = 0 then
    ⟨some 0, 0, .ok 0⟩
  else
    let id : UInt64 := (m buf).toUInt64
    let used := if id ≠ 0 then 1 else 0
    if len - 1 = 0 then
      let val := m (buf + 1)
      let more := if val ≠ 0 ∨ used ≠ 0 then used + 1 else used
      if (val ≠ 0 ∨ used ≠ 0) ∧ 8 < more then
        ⟨none, 2, .error .badValue⟩
      else
        ⟨none, 2, .ok more⟩
    else
      ⟨none, 1, .ok used⟩

/-- The largest id that `mpt_command_reserve` gives to a message with `max` bytes. -/
def reserveMax (max : Nat) : Nat :=
  match max with
  | 0 => 0
  | 1 => 0x7f
  | 2 => 0x7fff
  | 3 => 0x7fffffff / 0x100
  | 4 => 0x7fffffff
  | 5 => 0x7fffffffffffffff / 0x1000000
  | 6 => 0x7fffffffffffffff / 0x10000
  | 7 => 0x7fffffffffffffff / 0x100
  | _ => 0x7fffffffffffffff

theorem reserveMax_eq {n : Nat} (low : 1 ≤ n) (high : n ≤ 8) : reserveMax n + 1 = 2 ^ (8 * n - 1) := by
  interval_cases n <;> rfl

/-- The loop leaves what does not fit into the bytes it has written. -/
theorem id2bufLoop_id (m : Mem Byte) (buf : Nat) (id : UInt64) (used len : Nat) :
    (id2bufLoop m buf id used len).2.1.toNat = id.toNat / 256 ^ len := by
  induction len generalizing m id used with
  | zero => simp [id2bufLoop]
  | succ len ih =>
      rw [id2bufLoop, ih, UInt64.toNat_div, Nat.pow_succ, Nat.mul_comm, Nat.div_div_eq_div_mul]
      rfl

/-- The first byte holds the lowest byte of what is left. -/
theorem id2bufLoop_first (m : Mem Byte) (buf : Nat) (id : UInt64) (used len : Nat)
    (first : m (buf + len) = (id &&& 0xff).toUInt8) :
    (id2bufLoop m buf id used len).1 buf = ((id2bufLoop m buf id used len).2.1 &&& 0xff).toUInt8 := by
  induction len generalizing m id used with
  | zero => exact first
  | succ len ih =>
      rw [id2bufLoop]
      apply ih
      exact Mem.set_self _ _ _

/-- Encoding fails for the ids that do not fit into one byte less than there is. -/
theorem id2buf_ok (id : UInt64) (m : Mem Byte) (buf n : Nat) :
    (∃ used, (id2buf id m buf (n + 1)).2 = .ok used ∧
        (id2buf id m buf (n + 1)).1 buf = 0) ∧ id.toNat < 256 ^ n ∨
      (id2buf id m buf (n + 1)).2 = .error .missingBuffer ∧ 256 ^ n ≤ id.toNat := by
  have rest := id2bufLoop_id (m.set (buf + n) (id &&& 0xff).toUInt8) buf id 1 n
  have first := id2bufLoop_first (m.set (buf + n) (id &&& 0xff).toUInt8) buf id 1 n
    (Mem.set_self _ _ _)
  simp only [id2buf]
  revert rest first
  generalize id2bufLoop (m.set (buf + n) (id &&& 0xff).toUInt8) buf id 1 n = r
  obtain ⟨m', left, used⟩ := r
  intro rest first
  simp only at rest first
  by_cases fits : left = 0
  · have zero : id.toNat / 256 ^ n = 0 := by rw [← rest, fits]; rfl
    have lt : id.toNat < 256 ^ n := (Nat.div_eq_zero_iff_lt (by positivity)).mp zero
    have byte : m' buf = 0 := by rw [first, fits]; rfl
    refine .inl ⟨⟨used, ?_⟩, lt⟩
    simp [fits, byte]
  · have some : id.toNat / 256 ^ n ≠ 0 := by
      rw [← rest]
      exact fun zero => fits (UInt64.toNat_inj.mp zero)
    have le : 256 ^ n ≤ id.toNat := by
      by_contra lt
      exact some (Nat.div_eq_of_lt (by omega))
    exact .inr ⟨by simp [fits], le⟩

/-- An id passes through a buffer: it is encoded with the top bit clear and found again
    in exactly the bytes of the buffer. -/
def Passes (id : UInt64) (m : Mem Byte) (buf n : Nat) : Prop :=
  (∃ used, (id2buf id m buf n).2 = .ok used) ∧ ((id2buf id m buf n).1 buf).toNat < 0x80 ∧
    ∃ ret, buf2id (id2buf id m buf n).1 buf n = ⟨some id, n, .ok ret⟩

/-- The ids that can be reserved for `n` bytes pass, and encoding fails for exactly
    those that do not fit into the bits of `n` bytes without the top one. -/
def RoundTrip (id : UInt64) (m : Mem Byte) (buf n : Nat) : Prop :=
  (1 ≤ id.toNat ∧ id.toNat ≤ reserveMax n → Passes id m buf n) ∧
    ((∃ e, (id2buf id m buf n).2 = .error e) ↔ 2 ^ (8 * n - 1) ≤ id.toNat)

/-- No value is ever stored. -/
theorem buf2id_stored (m : Mem Byte) (buf : Nat) {n : Nat} (some : 1 ≤ n) :
    (buf2id m buf n).stored = none := by
  unfold buf2id
  rw [if_neg (by omega)]
  by_cases one : n - 1 = 0
  · simp only [one, if_true]
    split_ifs <;> rfl
  · simp only [one, if_false]

theorem not_passes {id : UInt64} {m : Mem Byte} {buf n : Nat} (some : 1 ≤ n) :
    ¬ Passes id m buf n := by
  rintro ⟨_, _, ret, eq⟩
  have stored := buf2id_stored (id2buf id m buf n).1 buf some
  rw [eq] at stored
  cases stored

/-- The round trip holds only where it says nothing: for the ids that cannot be
    reserved. -/
theorem roundTrip_iff (id : UInt64) (m : Mem Byte) (buf : Nat) {n : Nat} (low : 1 ≤ n)
    (high : n ≤ 8) : RoundTrip id m buf n ↔ id = 0 ∨ 2 ^ (8 * n - 1) ≤ id.toNat := by
  have range := reserveMax_eq low high
  constructor
  · intro h
    by_contra reserved
    have zero : id.toNat ≠ 0 := fun zero => reserved (.inl (UInt64.toNat_inj.mp zero))
    exact not_passes low (h.1 ⟨by omega, by omega⟩)
  · intro other
    obtain ⟨k, rfl⟩ := Nat.exists_eq_add_of_le' low
    have wide : 256 ^ k ≤ 2 ^ (8 * (k + 1) - 1) := by
      rw [show (256 : Nat) = 2 ^ 8 by rfl, ← Nat.pow_mul]
      exact Nat.pow_le_pow_right (by omega) (by omega)
    have one : 0 < 256 ^ k := by positivity
    refine ⟨fun reserved => ?_, ?_⟩
    · rcases other with rfl | large
      · exact absurd reserved.1 (by decide)
      · omega
    · rcases id2buf_ok id m buf k with ⟨⟨used, ok, _⟩, lt⟩ | ⟨failed, le⟩
      · refine iff_of_false (fun ⟨e, failed⟩ => ?_) (by omega)
        rw [ok] at failed
        cases failed
      · refine iff_of_true ⟨_, failed⟩ ?_
        rcases other with rfl | large
        · exact absurd le (by simp)
        · exact large

/-- The first id of an output with ids of one byte cannot be encoded. -/
theorem roundTrip_first_id : ¬ RoundTrip 1 (fun _ => 0) 16 1 ∧
    (id2buf 1 (fun _ => 0) 16 1).2 = .error .missingBuffer := by
  refine ⟨fun h => ?_, by decide⟩
  exact not_passes (Nat.le_refl 1) (h.1 ⟨by decide, by decide⟩)

/-- An id outside the range of two bytes. -/
theorem roundTrip_large : RoundTrip 0x8000 (fun _ => 0) 16 2 :=
  (roundTrip_iff 0x8000 (fun _ => 0) 16 (by decide) (by decide)).mpr (.inr (by decide))

end Mpt.Message
