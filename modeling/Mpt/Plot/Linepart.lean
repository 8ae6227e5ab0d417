import Mathlib.Algebra.Field.Basic
import Mathlib.Algebra.CharZero.Defs
import Mathlib.Data.Nat.Cast.Basic
import Mathlib.Tactic.LinearCombination
import Mathlib.Tactic.Ring

/-! # Parts of lines

A line is drawn in parts: `raw` points are passed over, `usr` of them belong to the window that
is drawn.  The fractions of the first and of the last line of a part that are not drawn are kept
as codes of 16 bits.
-/

namespace Mpt.Plot

/-- `struct linepart` -/
structure Linepart where
  raw : UInt16
  usr : UInt16
  cut : UInt16
  trim : UInt16
  deriving DecidableEq, Repr

/-- `point` -/
@[ext]
structure Point (K : Type u) where
  x : K
  y : K
  deriving DecidableEq, Repr

variable {K : Type u} [Field K]

/-- `mpt_linepart_real` -/
def linepartReal (val : UInt16) : K := (val.toNat : K) / 65536

theorem linepartReal_eq_zero [CharZero K] {val : UInt16} : (linepartReal val : K) = 0 ↔ val = 0 := by
  have whole : (65536 : K) ≠ 0 := by simp
  unfold linepartReal
  rw [div_eq_zero_iff, or_iff_left whole, Nat.cast_eq_zero]
  exact ⟨fun zero => UInt16.toNat_inj.mp zero, fun zero => by rw [zero]; rfl⟩

end Mpt.Plot
