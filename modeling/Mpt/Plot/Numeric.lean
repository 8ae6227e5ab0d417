import Mpt.Core
import Mpt.Plot.Iterator

/-! # Numeric iterators

Floating point numbers are known by their operations only, and so is the conversion from
text.  Every kind of iterator keeps its position and its current value in its own way.
-/

namespace Mpt.Plot

open Iteration

/-- What is done with floating point numbers. -/
structure Arith (F : Type u) where
  add : F → F → F
  sub : F → F → F
  mul : F → F → F
  div : F → F → F
  less : F → F → Bool
  isNaN : F → Bool
  ofNat : Nat → F
  /-- conversion to `int` -/
  toInt : F → Int
  /-- a constant `m` with `e` decimals -/
  const : (m e : Nat) → F
  /-- `mpt_cdouble`: the consumed length, and the number if it is positive -/
  cdouble : List Char → Int × F

def uintMax : Nat := 2 ^ 32 - 1

variable {F : Type u}

/-- The codes of `advance`: `'d'`, zero or an error. -/
def outcome : Except Error Nat → Outcome
  | .ok 0 => .last
  | .ok _ => .more
  | .error _ => .failed

/-- The code of `'d'`. -/
def codeD : Nat := 100

/-! ## Linear and range -/

/-- `struct iteratorLinear` -/
structure Linear (F : Type u) where
  base : F
  step : F
  curr : F
  elem : Nat
  pos : Nat

/-- `mpt_iterator_linear`; `unset` is what the memory has for the current value. -/
def iteratorLinear (A : Arith F) (unset : F) (len : Nat) (start end_ : F) : Option (Linear F) :=
  if len < 2 then none
  else some ⟨start, A.div (A.sub end_ start) (A.ofNat (len - 1)), unset, len, 0⟩

/-- `_mpt_iterator_range`, with the limits and the step that the value gives. -/
def iteratorRange (A : Arith F) (unset : F) (given : Option (F × F × F)) : Option (Linear F) :=
  match given with
  | none => some ⟨A.const 0 0, A.const 1 1, unset, 11, 0⟩
  | some (min, max, step) =>
      if A.less (A.sub max min) step ∨ A.less step (A.mul (A.sub max min) (A.const 1 6)) then
        none
      else
        some ⟨min, step, unset, ((A.toInt (A.div (A.sub max min) step) + 1) % 2 ^ 32).toNat, 0⟩

namespace Linear

def value (A : Arith F) (d : Linear F) : Linear F × Option F :=
  if d.elem ≤ d.pos then
    (d, none)
  else
    let curr := A.add d.base (A.mul (A.ofNat d.pos) d.step)
    ({ d with curr := curr }, some curr)

def advance (d : Linear F) : Linear F × Except Error Nat :=
  if d.elem ≤ d.pos then
    (d, .error .missingData)
  else
    ({ d with pos := d.pos + 1 }, .ok (if d.pos + 1 = d.elem then 0 else codeD))

def reset (d : Linear F) : Linear F := { d with pos := 0 }

/-- The new iterator is the default range first. -/
def clone (A : Arith F) (unset : F) (d : Linear F) : Option (Linear F) :=
  (iteratorRange A unset none).map fun c =>
    { c with base := d.base, step := d.step, elem := d.elem, pos := d.pos }

end Linear

/-! ## Factor -/

/-- `struct iterFactorData` -/
structure Factor (F : Type u) where
  base : F
  fact : F
  init : F
  elem : Nat
  pos : Nat
  curr : F

/-- `_mpt_iterator_factor`, with the number of elements and the parameters that the value
    gives. -/
def iteratorFactor (A : Arith F) (given : Option (Nat × F × F × F)) : Factor F :=
  match given with
  | none => ⟨A.const 10 0, A.const 10 0, A.const 0 0, 10, 0, A.const 0 0⟩
  | some (iter, base, fact, init) => ⟨base, fact, init, (iter + 1) % 2 ^ 32, 0, init⟩

namespace Factor

def value (d : Factor F) : Factor F × Option F :=
  (d, if d.elem ≤ d.pos then none else some d.curr)

def advance (A : Arith F) (d : Factor F) : Factor F × Except Error Nat :=
  if d.elem ≤ d.pos then
    (d, .error .missingData)
  else
    ({ d with pos := d.pos + 1, curr := if d.pos = 0 then d.base else A.mul d.curr d.fact },
      .ok (if d.pos + 1 = d.elem then 0 else codeD))

def reset (d : Factor F) : Factor F := { d with pos := 0, curr := d.init }

/-- All data of the default iterator is replaced. -/
def clone (d : Factor F) : Option (Factor F) := some d

end Factor

/-! ## Boundary -/

/-- `struct iteratorBoundary` -/
structure Boundary (F : Type u) where
  left : F
  inter : F
  right : F
  elem : Nat
  pos : Nat

/-- `mpt_iterator_boundary` -/
def iteratorBoundary (len : Nat) (left inter right : F) : Option (Boundary F) :=
  if len < 2 then none else some ⟨left, inter, right, len, 0⟩

namespace Boundary

/-- The position in the structure and the end of it: two interfaces, a value, three numbers
    and two counters. -/
def posOffset : Nat := 8 + 8 + 16 + 24 + 4

def size : Nat := posOffset + 4

def value (d : Boundary F) : Boundary F × Option F :=
  (d, if d.elem ≤ d.pos then none
    else if d.pos = 0 then some d.left
    else if d.pos < d.elem - 1 then some d.inter
    else some d.right)

def advance (d : Boundary F) : Boundary F × Except Error Nat :=
  if d.elem ≤ d.pos then
    (d, .error .missingData)
  else
    ({ d with pos := d.pos + 1 }, .ok (if d.pos + 1 = d.elem then 0 else codeD))

def reset (d : Boundary F) : Boundary F := { d with pos := 0 }

/-- The position is set in a structure that starts two interfaces behind the new one, and
    so outside of that. -/
def clone (d : Boundary F) : Option (Boundary F × Bool) :=
  (iteratorBoundary d.elem d.left d.inter d.right).map fun c => (c, decide (size < 2 * 8 + posOffset + 4))

end Boundary

/-! ## Values from a text -/

/-- `struct iteratorValues`: the text, and what follows the current value in it. -/
structure Values (F : Type u) where
  text : List Char
  next : Option (List Char)
  curr : F

/-- `mpt_iterator_values` -/
def iteratorValues (A : Arith F) (text : List Char) : Option (Values F) :=
  let (adv, flt) := A.cdouble text
  if adv ≤ 0 then none else some ⟨text, some (text.drop adv.toNat), flt⟩

namespace Values

def value (d : Values F) : Values F × Option F := (d, d.next.map fun _ => d.curr)

def advance (A : Arith F) (d : Values F) : Values F × Except Error Nat :=
  match d.next with
  | none => (d, .error .missingData)
  | some next =>
      let (len, curr) := A.cdouble next
      if next = [] ∨ len = 0 then
        ({ d with next := none }, .ok 0)
      else
        let d := { d with curr := if 0 < len then curr else d.curr }
        if len < 0 ∨ A.isNaN d.curr then
          (d, .error .badValue)
        else
          ({ d with next := some (next.drop len.toNat) }, .ok codeD)

def reset (A : Arith F) (d : Values F) : Values F :=
  let (len, curr) := A.cdouble d.text
  if len = 0 then
    { d with curr := A.const 0 0 }
  else
    let d := { d with curr := if 0 < len then curr else d.curr }
    if len < 0 ∨ A.isNaN d.curr then d else { d with next := some (d.text.drop len.toNat) }

/-- The difference of the positions is moved to the new text; a null pointer gives an
    address outside of it, and `stray` is what is found there. -/
def clone (A : Arith F) (stray : List Char) (d : Values F) : Option (Values F) :=
  (iteratorValues A d.text).map fun c => { c with next := some (d.next.getD stray), curr := d.curr }

end Values

/-! ## Polynoms -/

/-- `struct iteratorPolynom` and its coefficients: shift and factor.  The value is what was
    calculated at the position. -/
structure Poly (F : Type u) where
  coeff : List (F × F)
  grid : Option (List F)
  pos : Nat
  val : Option F

/-- `mpt_iterator_poly`, with the coefficients that the description gives. -/
def iteratorPoly (coeff : List (F × F)) (grid : Option (List F)) : Poly F := ⟨coeff, grid, 0, none⟩

/-- `prod *= tmp`, as often as there are further coefficients. -/
def mulTimes (A : Arith F) (tmp : F) : (k : Nat) → (prod : F) → F
  | 0, prod => prod
  | k + 1, prod => mulTimes A tmp k (A.mul prod tmp)

def polySum (A : Arith F) (val : F) : List (F × F) → (sum : F) → F
  | [], sum => sum
  | (shift, mult) :: rest, sum =>
      polySum A val rest (A.add sum (mulTimes A (A.add val shift) rest.length mult))

namespace Poly

/-- The end of the positions. -/
def max (d : Poly F) : Nat := match d.grid with
  | some grid => grid.length
  | none => uintMax

/-- The point at a position. -/
def point (A : Arith F) (d : Poly F) (pos : Nat) : Option F := match d.grid with
  | some grid => grid[pos]?
  | none => some (A.ofNat pos)

def polynom (A : Arith F) (d : Poly F) (val : F) : F :=
  if d.coeff = [] then val else polySum A val d.coeff (A.const 0 0)

def value (A : Arith F) (d : Poly F) : Poly F × Option F :=
  -- check limits and set initial value
  if d.max ≤ d.pos then
    (d, none)
  else
    match d.val with
    -- reuse calculations of previous call
    | some curr => (d, some curr)
    | none =>
        let sum := (d.point A d.pos).map fun val => d.polynom A val
        ({ d with val := sum }, sum)

def advance (d : Poly F) : Poly F × Except Error Nat :=
  if d.max ≤ d.pos then
    (d, .error (if d.grid.isSome then .badOperation else .missingData))
  else
    ({ d with val := none, pos := d.pos + 1 }, .ok (if d.pos + 1 = d.max then 0 else codeD))

def reset (d : Poly F) : Poly F := { d with pos := 0 }

end Poly

/-! ## All kinds -/

/-- An iterator of any kind; what the memory has for unset parts, and at stray addresses. -/
structure Found (F : Type u) where
  unset : F
  stray : List Char

inductive Numeric (F : Type u) where
  | linear (d : Linear F)
  | factor (d : Factor F)
  | boundary (d : Boundary F)
  | values (d : Values F)
  | poly (d : Poly F)

/-- The iterators that can be made. -/
inductive Numeric.Made (A : Arith F) (found : Found F) : Numeric F → Prop where
  | linear {len : Nat} {start end_ : F} {d : Linear F}
      (made : iteratorLinear A found.unset len start end_ = some d) : Made A found (.linear d)
  | range {given : Option (F × F × F)} {d : Linear F}
      (made : iteratorRange A found.unset given = some d) : Made A found (.linear d)
  | factor (given : Option (Nat × F × F × F)) : Made A found (.factor (iteratorFactor A given))
  | boundary {len : Nat} {left inter right : F} {d : Boundary F}
      (made : iteratorBoundary len left inter right = some d) : Made A found (.boundary d)
  | values {text : List Char} {d : Values F} (made : iteratorValues A text = some d) :
      Made A found (.values d)
  | poly (coeff : List (F × F)) (grid : Option (List F)) : Made A found (.poly (iteratorPoly coeff grid))

/-- The calls of the interface. -/
def Numeric.calls (A : Arith F) (found : Found F) : Calls (Numeric F) F where
  value
    | .linear d => ((d.value A).map .linear id)
    | .factor d => (d.value.map .factor id)
    | .boundary d => (d.value.map .boundary id)
    | .values d => (d.value.map .values id)
    | .poly d => ((d.value A).map .poly id)
  advance
    | .linear d => (d.advance.map .linear outcome)
    | .factor d => ((d.advance A).map .factor outcome)
    | .boundary d => (d.advance.map .boundary outcome)
    | .values d => ((d.advance A).map .values outcome)
    | .poly d => (d.advance.map .poly outcome)
  reset
    | .linear d => .linear d.reset
    | .factor d => .factor d.reset
    | .boundary d => .boundary d.reset
    | .values d => .values (d.reset A)
    | .poly d => .poly d.reset
  clone
    | .linear d => (d.clone A found.unset).map fun c => (.linear c, false)
    | .factor d => d.clone.map fun c => (.factor c, false)
    | .boundary d => d.clone.map fun (c, outside) => (.boundary c, outside)
    | .values d => (d.clone A found.stray).map fun c => (.values c, false)
    | .poly _ => none

end Mpt.Plot
