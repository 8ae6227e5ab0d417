import Mpt.Memory
import Mathlib.Algebra.Order.Field.Rat
import Mathlib.Algebra.Order.Field.Power
import Mathlib.Tactic.Positivity
import Mathlib.Tactic.Ring
import Mathlib.Tactic.NormNum

/-! # Order of extended floats

A packed float has sign and exponent in one signed word and the mantissa in eight bytes.
`float80Compare` orders these words, and the order of the numbers is the same for a pair that
is not negative on both sides.
-/

namespace Mpt.Number

/-- `struct float80` as a little endian machine has it -/
@[ext] structure Float80 where
  /-- `_prefix` -/
  head : BitVec 16
  mantissa : BitVec 64
  deriving Repr, DecidableEq

namespace Float80

/-- the bit fields of `struct _mpt_ieee_float80_prefix` -/
def exponent (x : Float80) : BitVec 15 := x.head.extractLsb' 0 15

def negative (x : Float80) : Bool := x.head.getLsbD 15

/-- the words of `struct _mpt_ieee_float80_mantissa` -/
def mantissa1 (x : Float80) : BitVec 32 := x.mantissa.extractLsb' 0 32

def mantissa0 (x : Float80) : BitVec 32 := x.mantissa.extractLsb' 32 32

end Float80

/-- `union ieee854_long_double` -/
structure LongDouble where
  mantissa1 : BitVec 32
  mantissa0 : BitVec 32
  exponent : BitVec 15
  negative : Bool
  empty : BitVec 16
  deriving Repr, DecidableEq

def decodeOne (x : Float80) : LongDouble :=
  ⟨x.mantissa1, x.mantissa0, x.exponent, x.negative, 0⟩

def encodeOne (x : LongDouble) : Float80 :=
  ⟨BitVec.ofBool x.negative ++ x.exponent, x.mantissa0 ++ x.mantissa1⟩

/-- The loops over `len - pos` elements. -/
def convertLoop {α β : Type} (one : α → β) (src : Mem α) (dst : Mem β) (pos : Nat) : Nat → Mem β
  | 0 => dst
  | n + 1 => convertLoop one src (dst.set pos (one (src pos))) (pos + 1) n

/-- `mpt_float80_decode` -/
def float80Decode (len : Int) (src : Mem Float80) (dst : Mem LongDouble) : Mem LongDouble :=
  convertLoop decodeOne src dst 0 len.toNat

/-- `mpt_float80_encode` -/
def float80Encode (len : Int) (src : Mem LongDouble) (dst : Mem Float80) : Mem Float80 :=
  convertLoop encodeOne src dst 0 len.toNat

/-- `mpt_float80_compare` -/
def float80Compare (val ref : Float80) : Int :=
  if val.head.toInt < ref.head.toInt then -1
  else if ref.head.toInt < val.head.toInt then 1
  else if val.mantissa0.toNat < ref.mantissa0.toNat then -2
  else if ref.mantissa0.toNat < val.mantissa0.toNat then 2
  else if val.mantissa1.toNat < ref.mantissa1.toNat then -2
  else if ref.mantissa1.toNat < val.mantissa1.toNat then 2
  else 0

/-! ## Round trip -/

theorem encode_decode_one (x : Float80) : encodeOne (decodeOne x) = x := by
  apply Float80.ext
  · apply BitVec.eq_of_getLsbD_eq
    intro i lt
    simp only [encodeOne, decodeOne, Float80.negative, Float80.exponent, BitVec.getLsbD_append,
      BitVec.getLsbD_extractLsb', BitVec.getLsbD_ofBool, Nat.zero_add]
    by_cases low : i < 15
    · simp [low]
    · obtain rfl : i = 15 := by omega
      simp
  · apply BitVec.eq_of_getLsbD_eq
    intro i lt
    simp only [encodeOne, decodeOne, Float80.mantissa0, Float80.mantissa1, BitVec.getLsbD_append,
      BitVec.getLsbD_extractLsb', Nat.zero_add]
    by_cases low : i < 32
    · simp [low]
    · simp [low, show 32 + (i - 32) = i by omega, show i - 32 < 32 by omega]

theorem convertLoop_at {α β : Type} (one : α → β) (src : Mem α) (dst : Mem β) (pos n i : Nat) :
    convertLoop one src dst pos n i = if pos ≤ i ∧ i < pos + n then one (src i) else dst i := by
  induction n generalizing dst pos with
  | zero => simp [convertLoop]
  | succ n ih =>
      rw [convertLoop, ih]
      by_cases here : i = pos
      · subst here
        simp
      · rw [Mem.set_ne _ _ here]
        congr 1
        apply propext
        omega

/-- Decoded and encoded again, the elements are the ones there were. -/
theorem float80Encode_decode (len : Int) (src : Mem Float80) (native : Mem LongDouble)
    (dst : Mem Float80) (i : Nat) :
    float80Encode len (float80Decode len src native) dst i =
      if (i : Int) < len then src i else dst i := by
  have range : 0 ≤ i ∧ i < 0 + len.toNat ↔ (i : Int) < len := by omega
  rw [float80Encode, convertLoop_at, float80Decode, convertLoop_at]
  simp only [range]
  split
  · exact encode_decode_one (src i)
  · rfl

/-! ## Order -/

/-- The two words as one number. -/
def Float80.key (x : Float80) : Int := x.head.toInt * 2 ^ 64 + x.mantissa.toNat

theorem mantissa_words (x : Float80) :
    x.mantissa.toNat = x.mantissa0.toNat * 2 ^ 32 + x.mantissa1.toNat := by
  simp only [Float80.mantissa0, Float80.mantissa1, BitVec.extractLsb'_toNat, Nat.shiftRight_eq_div_pow]
  have := x.mantissa.isLt
  omega

theorem float80Compare_key (a b : Float80) :
    (float80Compare a b < 0 ↔ a.key < b.key) ∧ (0 < float80Compare a b ↔ b.key < a.key) := by
  have wa := mantissa_words a
  have wb := mantissa_words b
  have la := a.mantissa1.isLt
  have lb := b.mantissa1.isLt
  have ha := a.mantissa0.isLt
  have hb := b.mantissa0.isLt
  unfold float80Compare Float80.key
  omega

theorem float80Compare_symm (a b : Float80) : float80Compare b a = -float80Compare a b := by
  unfold float80Compare
  omega

/-! ## The numbers -/

namespace Float80

/-- A finite number with the highest bit of the mantissa set. -/
def Normalized (x : Float80) : Prop :=
  0 < x.exponent.toNat ∧ x.exponent.toNat < 2 ^ 15 - 1 ∧ 2 ^ 63 ≤ x.mantissa.toNat

def Zero (x : Float80) : Prop := x.exponent.toNat = 0 ∧ x.mantissa.toNat = 0

instance (x : Float80) : Decidable x.Normalized := inferInstanceAs (Decidable (_ ∧ _))

instance (x : Float80) : Decidable x.Zero := inferInstanceAs (Decidable (_ ∧ _))

/-- The number in units of the lowest bit of the lowest exponent. -/
def units (x : Float80) : Int :=
  (if x.negative then -1 else 1) * (x.mantissa.toNat * 2 ^ x.exponent.toNat : Nat)

/-- The number that the value represents. -/
def number (x : Float80) : ℚ :=
  (if x.negative then -1 else 1) * x.mantissa.toNat * 2 ^ ((x.exponent.toNat : ℤ) - 16383 - 63)

def unit : ℚ := 2 ^ (-16446 : ℤ)

theorem unit_pos : 0 < unit := zpow_pos (by norm_num) _

theorem number_units (x : Float80) : x.number = x.units * unit := by
  have split : (2 : ℚ) ^ ((x.exponent.toNat : ℤ) - 16383 - 63) = 2 ^ x.exponent.toNat * unit := by
    rw [unit, ← zpow_natCast, ← zpow_add₀ (by norm_num)]
    congr 1
    omega
  rw [number, units, split]
  push_cast
  split <;> ring

theorem number_lt (a b : Float80) : a.number < b.number ↔ a.units < b.units := by
  rw [number_units, number_units, mul_lt_mul_iff_left₀ unit_pos, Int.cast_lt]

theorem number_eq (a b : Float80) : a.number = b.number ↔ a.units = b.units := by
  rw [number_units, number_units, mul_left_inj' unit_pos.ne', Int.cast_inj]

theorem head_toInt (x : Float80) :
    x.head.toInt = x.exponent.toNat - if x.negative then 2 ^ 15 else 0 := by
  have lt := x.head.isLt
  simp only [negative, exponent, BitVec.extractLsb'_toNat, BitVec.getLsbD, Nat.testBit_eq_decide_div_mod_eq,
    Nat.shiftRight_eq_div_pow, BitVec.toInt_eq_toNat_cond, decide_eq_true_eq]
  omega

theorem eq_of_key {a b : Float80} (same : a.key = b.key) : a = b := by
  have la := a.mantissa.isLt
  have lb := b.mantissa.isLt
  unfold key at same
  apply Float80.ext
  · exact BitVec.eq_of_toInt_eq (by omega)
  · exact BitVec.eq_of_toNat_eq (by omega)

/-- A larger exponent outweighs every mantissa. -/
theorem magnitude_lt {a b : Float80} (hb : b.Normalized ∨ b.Zero)
    (lt : a.exponent.toNat * 2 ^ 64 + a.mantissa.toNat < b.exponent.toNat * 2 ^ 64 + b.mantissa.toNat) :
    a.mantissa.toNat * 2 ^ a.exponent.toNat < b.mantissa.toNat * 2 ^ b.exponent.toNat := by
  have la := a.mantissa.isLt
  have lb := b.mantissa.isLt
  by_cases same : a.exponent.toNat = b.exponent.toNat
  · rw [same]
    apply Nat.mul_lt_mul_of_pos_right
    · omega
    · exact Nat.two_pow_pos _
  · have above : a.exponent.toNat + 1 ≤ b.exponent.toNat := by omega
    have high : 2 ^ 63 ≤ b.mantissa.toNat := by
      rcases hb with normal | zero
      · exact normal.2.2
      · have := zero.1
        omega
    calc a.mantissa.toNat * 2 ^ a.exponent.toNat
        < 2 ^ 64 * 2 ^ a.exponent.toNat := Nat.mul_lt_mul_of_pos_right la (Nat.two_pow_pos _)
      _ = 2 ^ 63 * 2 ^ (a.exponent.toNat + 1) := by ring
      _ ≤ b.mantissa.toNat * 2 ^ b.exponent.toNat :=
          Nat.mul_le_mul high (Nat.pow_le_pow_right (by omega) above)

/-- The values the order is about: numbers in the normal form, or zero. -/
def Finite (x : Float80) : Prop := x.Normalized ∨ x.Zero

theorem units_pos {x : Float80} (sign : x.negative = false) :
    x.units = (x.mantissa.toNat * 2 ^ x.exponent.toNat : Nat) := by
  simp [units, sign]

theorem units_neg {x : Float80} (sign : x.negative = true) :
    x.units = -(x.mantissa.toNat * 2 ^ x.exponent.toNat : Nat) := by
  simp [units, sign]

theorem zero_of_magnitude {x : Float80} (hx : x.Finite)
    (zero : x.mantissa.toNat * 2 ^ x.exponent.toNat = 0) : x.Zero := by
  rcases hx with normal | zero'
  · have none : x.mantissa.toNat = 0 :=
      (Nat.mul_eq_zero.mp zero).resolve_right (Nat.pos_iff_ne_zero.mp (Nat.two_pow_pos _))
    have := normal.2.2
    omega
  · exact zero'

/-- The words have the order of the numbers where one of them is not negative. -/
theorem units_lt {a b : Float80} (ha : a.Finite) (hb : b.Finite)
    (zeros : a.Zero → b.Zero → a.negative = b.negative) (sign : ¬ (a.negative ∧ b.negative))
    (lt : a.key < b.key) : a.units < b.units := by
  have la := a.mantissa.isLt
  have lb := b.mantissa.isLt
  have ea := a.exponent.isLt
  have eb := b.exponent.isLt
  unfold key at lt
  rw [head_toInt, head_toInt] at lt
  cases na : a.negative <;> cases nb : b.negative <;> simp only [na, nb] at lt sign zeros
  · have magnitude := magnitude_lt (a := a) hb (by simp at lt; omega)
    rw [units_pos na, units_pos nb]
    exact Int.ofNat_lt.mpr magnitude
  · simp at lt
    omega
  · rw [units_neg na, units_pos nb]
    by_contra not
    have none := zeros (zero_of_magnitude ha (by omega)) (zero_of_magnitude hb (by omega))
    cases none
  · simp at sign

/-- Between negative values it is the reverse. -/
theorem units_gt {a b : Float80} (ha : a.Finite) (na : a.negative = true) (nb : b.negative = true)
    (gt : b.key < a.key) : a.units < b.units := by
  have magnitude := magnitude_lt (a := b) ha (by
    unfold key at gt
    rw [head_toInt, head_toInt, na, nb] at gt
    simp at gt
    omega)
  rw [units_neg na, units_neg nb]
  omega

end Float80

/-- The comparison tells the order of the numbers. -/
structure Compared (a b : Float80) : Prop where
  less : float80Compare a b < 0 ↔ a.number < b.number
  same : float80Compare a b = 0 ↔ a.number = b.number
  greater : 0 < float80Compare a b ↔ b.number < a.number

theorem compared_self (a : Float80) : Compared a a := by
  have symm := float80Compare_symm a a
  constructor
  · simp only [lt_irrefl, iff_false]
    omega
  · simp only [iff_true]
    omega
  · simp only [lt_irrefl, iff_false]
    omega

theorem compared_of {a b : Float80} (ha : a.Finite) (hb : b.Finite)
    (zeros : a.Zero → b.Zero → a.negative = b.negative) (sign : ¬ (a.negative ∧ b.negative)) :
    Compared a b := by
  obtain ⟨less, greater⟩ := float80Compare_key a b
  rcases lt_trichotomy a.key b.key with lt | same | gt
  · have units := Float80.units_lt ha hb zeros sign lt
    constructor
    · rw [less, Float80.number_lt]
      omega
    · rw [Float80.number_eq]
      omega
    · rw [greater, Float80.number_lt]
      omega
  · obtain rfl := Float80.eq_of_key same
    exact compared_self a
  · have units := Float80.units_lt hb ha (fun zb za => (zeros za zb).symm)
      (fun both => sign both.symm) gt
    constructor
    · rw [less, Float80.number_lt]
      omega
    · rw [Float80.number_eq]
      omega
    · rw [greater, Float80.number_lt]
      omega

theorem not_compared {a b : Float80} (ha : a.Finite) (hb : b.Finite) (na : a.negative = true)
    (nb : b.negative = true) (ne : a ≠ b) : ¬ Compared a b := by
  intro compared
  have less := (float80Compare_key a b).1.symm.trans (compared.less.trans (Float80.number_lt a b))
  have greater := (float80Compare_key a b).2.symm.trans (compared.greater.trans (Float80.number_lt b a))
  rcases lt_trichotomy a.key b.key with lt | same | gt
  · have := Float80.units_gt hb nb na lt
    have := less.mp lt
    omega
  · exact ne (Float80.eq_of_key same)
  · have := Float80.units_gt ha na nb gt
    have := greater.mp gt
    omega

/-- The comparison is an order of all values, and the order of the numbers for every pair that is
    not negative on both sides.  Decoding and encoding restores the values. -/
theorem float80_order (a b : Float80) :
    (a.Finite → b.Finite → (a.Zero → b.Zero → a.negative = b.negative) →
      (Compared a b ↔ ¬ (a.negative ∧ b.negative) ∨ a = b)) ∧
    float80Compare b a = -float80Compare a b ∧
    (∀ c, float80Compare a b ≤ 0 → float80Compare b c ≤ 0 →
      float80Compare a c ≤ 0 ∧
        (float80Compare a c = 0 → float80Compare a b = 0 ∧ float80Compare b c = 0)) ∧
    (∀ len src native dst i, float80Encode len (float80Decode len src native) dst i =
      if (i : Int) < len then src i else dst i) := by
  refine ⟨?_, float80Compare_symm a b, ?_, float80Encode_decode⟩
  · intro ha hb zeros
    constructor
    · intro compared
      by_contra other
      obtain ⟨both, ne⟩ := not_or.mp other
      have signs := Decidable.not_not.mp both
      exact not_compared ha hb signs.1 signs.2 ne compared
    · rintro (sign | rfl)
      · exact compared_of ha hb zeros sign
      · exact compared_self a
  · intro c ab bc
    have keys := fun x y => float80Compare_key x y
    have := keys a b
    have := keys b c
    have := keys a c
    omega

/-- Minus one and minus two. -/
theorem negatives_reversed :
    ¬ ∀ a b : Float80, a.Finite → b.Finite → (a.Zero → b.Zero → a.negative = b.negative) →
      Compared a b := by
  intro all
  let one : Float80 := ⟨0xbfff, 0x8000000000000000⟩
  let two : Float80 := ⟨0xc000, 0x8000000000000000⟩
  have finite : one.Finite ∧ two.Finite := ⟨.inl (by decide +kernel), .inl (by decide +kernel)⟩
  have signs : one.negative = true ∧ two.negative = true := by decide
  exact not_compared finite.1 finite.2 signs.1 signs.2 (by decide)
    (all one two finite.1 finite.2 fun _ _ => signs.1.trans signs.2.symm)

end Mpt.Number
