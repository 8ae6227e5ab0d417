import Mpt.Number.Integer
import Mathlib.Data.List.TakeWhile

/-! # Integers at the start of a text

The conversions `strtoimax` and `strtoumax` of the C library.  `scan` finds the longest integer at
the start of a text, with its value as a mathematical integer; the two conversions bring this
value into a word.  A text has the characters up to its end mark.
-/

namespace Mpt.Number

/-- `isspace` of the C locale -/
def isspace (c : Char) : Bool :=
  c = ' ' || c = '\t' || c = '\n' || c = '\x0b' || c = '\x0c' || c = '\r'

/-- The value of a digit or letter. -/
def digitValue (c : Char) : Option Nat :=
  if '0' ≤ c ∧ c ≤ '9' then some (c.toNat - 48)
  else if 'a' ≤ c ∧ c ≤ 'z' then some (c.toNat - 87)
  else if 'A' ≤ c ∧ c ≤ 'Z' then some (c.toNat - 55)
  else none

def isDigit (base : Nat) (c : Char) : Bool :=
  match digitValue c with
  | some d => d < base
  | none => false

/-- The number that digits make, after the digits that made `n`. -/
def number (base : Nat) (digits : List Char) (n : Nat) : Nat :=
  digits.foldl (fun n c => n * base + (digitValue c).getD 0) n

/-- An integer found in a text: sign, magnitude and the extent with all in front of it. -/
structure Found where
  negative : Bool
  magnitude : Nat
  extent : Nat
  deriving Repr, DecidableEq

/-- The mathematical value. -/
def Found.value (f : Found) : Int := if f.negative then -f.magnitude else f.magnitude

/-- The sign, and how much it takes. -/
def scanSign : List Char → Bool × List Char
  | '-' :: l => (true, l)
  | '+' :: l => (false, l)
  | l => (false, l)

/-- The base that the digits have, and the digits with what follows. -/
def scanBase (base : Nat) (l : List Char) : Nat × List Char :=
  match base, l with
  | 0, '0' :: 'x' :: c :: rest => if isDigit 16 c then (16, c :: rest) else (8, l)
  | 0, '0' :: 'X' :: c :: rest => if isDigit 16 c then (16, c :: rest) else (8, l)
  | 16, '0' :: 'x' :: c :: rest => if isDigit 16 c then (16, c :: rest) else (16, l)
  | 16, '0' :: 'X' :: c :: rest => if isDigit 16 c then (16, c :: rest) else (16, l)
  | 0, '0' :: _ => (8, l)
  | 0, _ => (10, l)
  | base, _ => (base, l)

/-- The integer at the start of the text; there is none in a base that does not exist. -/
def scan (base : Nat) (text : List Char) : Option Found :=
  if base = 1 ∨ 36 < base then none
  else
    let (negative, l) := scanSign (text.dropWhile isspace)
    let (base, l) := scanBase base l
    let digits := l.takeWhile (isDigit base)
    if digits = [] then none
    else some ⟨negative, number base digits 0, text.length - l.length + digits.length⟩

def int64Min : Int := -2 ^ 63

def int64Max : Int := 2 ^ 63 - 1

def uint64Max : Int := 2 ^ 64 - 1

/-- The value in a signed word: the nearest one. -/
def Found.signed (f : Found) : Int :=
  if f.value < int64Min then int64Min else if int64Max < f.value then int64Max else f.value

/-- The value in an unsigned word: the highest one for a magnitude beyond, and the complement for
    a sign. -/
def Found.unsigned (f : Found) : Int :=
  if uint64Max < f.magnitude then uint64Max else f.value % 2 ^ 64

/-- `strtoimax`: the value and where the integer ends. -/
def strtoimax (text : List Char) (base : Nat) : Int × Nat :=
  match scan base text with
  | none => (0, 0)
  | some f => (f.signed, f.extent)

/-- `strtoumax` -/
def strtoumax (text : List Char) (base : Nat) : Int × Nat :=
  match scan base text with
  | none => (0, 0)
  | some f => (f.unsigned, f.extent)

theorem scan_extent {base : Nat} {text : List Char} (found : scan base text = some f) :
    0 < f.extent := by
  unfold scan at found
  split at found
  · cases found
  · simp only at found
    split at found
    · cases found
    · cases found
      have := List.length_pos_of_ne_nil ‹_›
      simp only
      omega

/-- No integer starts in white space. -/
theorem scan_blank {base : Nat} {text : List Char} (blank : text.all isspace) :
    scan base text = none := by
  have rest : text.dropWhile isspace = [] := by
    rw [List.dropWhile_eq_nil_iff]
    exact fun c h => List.all_eq_true.mp blank c h
  unfold scan
  rw [rest]
  have base : scanBase base [] = (if base = 0 then 10 else base, []) := by
    unfold scanBase
    split <;> simp_all
  simp [scanSign, base]

theorem signed_eq {f : Found} (holds : IntType.int64.Holds f.value) : f.signed = f.value := by
  unfold Found.signed
  have low : int64Min ≤ f.value := holds.1
  have high : f.value ≤ int64Max := holds.2
  rw [if_neg (by omega), if_neg (by omega)]

theorem value_natAbs (f : Found) : f.value = f.magnitude ∨ f.value = -f.magnitude := by
  unfold Found.value
  split
  · exact .inr rfl
  · exact .inl rfl

theorem unsigned_eq {f : Found} (holds : IntType.uint64.Holds f.value) : f.unsigned = f.value := by
  have low : 0 ≤ f.value := holds.1
  have high : f.value ≤ 2 ^ 64 - 1 := holds.2
  have magnitude := value_natAbs f
  rw [Found.unsigned, if_neg]
  · omega
  · unfold uint64Max
    omega

end Mpt.Number
