import Mpt.Number.Scan
import Mpt.Number.DataConvert

/-! # Integers from text

`mpt_cint8` to `mpt_cuint64` look at what the C library has made of a text.  The library has
already brought the value into 64 bits, and only the result of that is compared with the limits.
-/

namespace Mpt.Number

/-- A length as an `int`. -/
def intOf (n : Nat) : Int := IntType.int32.ofWord (n % 2 ^ 32)

/-- The result of a conversion to text or number: a length, or zero and below for none. -/
abbrev Length := Except Error Int

/-- `_mpt_convert_int`: the result and the value that is stored. -/
def convertInt (vlen : Nat) (src : Option (List Char)) (base : Nat) : Length × Option Int :=
  match src with
  | none => (.error .badArgument, none)
  | some text =>
      if text = [] then (.ok 0, none)
      else
        let (tmp, stop) := strtoimax text base
        if stop = 0 then
          -- accept space as empty string
          if text.all isspace then (.ok 0, none) else (.error .badType, none)
        else
          match vlen with
          | 1 =>
              if tmp < IntType.int8.min ∨ IntType.int8.max < tmp then (.error .badValue, none)
              else (.ok (intOf stop), some tmp)
          | 2 =>
              if tmp < IntType.int16.min ∨ IntType.int16.max < tmp then (.error .badValue, none)
              else (.ok (intOf stop), some tmp)
          | 4 =>
              if tmp < IntType.int32.min ∨ IntType.int32.max < tmp then (.error .badValue, none)
              else (.ok (intOf stop), some tmp)
          | 8 =>
              if tmp < IntType.int64.min ∨ IntType.int64.max < tmp then (.error .badValue, none)
              else (.ok (intOf stop), some tmp)
          | _ => (.error .badType, none)

/-- `_mpt_convert_uint` -/
def convertUint (vlen : Nat) (src : Option (List Char)) (base : Nat) : Length × Option Int :=
  match src with
  | none => (.error .badArgument, none)
  | some text =>
      if text = [] then (.ok 0, none)
      else
        let (tmp, stop) := strtoumax text base
        if stop = 0 then
          if text.all isspace then (.ok 0, none) else (.error .badType, none)
        else
          match vlen with
          | 1 =>
              if IntType.uint8.max < tmp then (.error .badValue, none)
              else (.ok (intOf stop), some tmp)
          | 2 =>
              if IntType.uint16.max < tmp then (.error .badValue, none)
              else (.ok (intOf stop), some tmp)
          | 4 =>
              if IntType.uint32.max < tmp then (.error .badValue, none)
              else (.ok (intOf stop), some tmp)
          | 8 =>
              if IntType.uint64.max < tmp then (.error .badValue, none)
              else (.ok (intOf stop), some tmp)
          | _ => (.error .badType, none)

/-- The limits that a caller gives. -/
def within (range : Option (Int × Int)) (v : Int) : Prop :=
  match range with
  | none => True
  | some (low, high) => low ≤ v ∧ v ≤ high

instance (range : Option (Int × Int)) (v : Int) : Decidable (within range v) := by
  unfold within
  cases range <;> infer_instance

/-- `if (val) *val = tmp` -/
def assign (dest : Option Nat) (bytes : List Byte) (m : Mem Byte) : Mem Byte :=
  match dest with
  | none => m
  | some a => m.write a bytes

/-- `GET_STRING_FCN` with the function `get` and the type `t` -/
def getString (get : Nat → Option (List Char) → Nat → Length × Option Int) (t : IntType)
    (dest : Option Nat) (src : Option (List Char)) (base : Nat) (range : Option (Int × Int))
    (m : Mem Byte) : Mem Byte × Length :=
  match get t.size src base with
  | (.error e, _) => (m, .error e)
  | (.ok ret, tmp) =>
      if ret ≤ 0 then (m, .ok ret)
      else if ¬ within range (tmp.getD 0) then (m, .error .badValue)
      else (assign dest (bytesOf t.size (tmp.getD 0)) m, .ok ret)

def cint8 := getString convertInt .int8
def cint16 := getString convertInt .int16
def cint32 := getString convertInt .int32
def cint64 := getString convertInt .int64
def cuint8 := getString convertUint .uint8
def cuint16 := getString convertUint .uint16
def cuint32 := getString convertUint .uint32
def cuint64 := getString convertUint .uint64

/-- The functions by the type of their target. -/
def cinteger : IntType → (dest : Option Nat) → (src : Option (List Char)) → (base : Nat) →
    (range : Option (Int × Int)) → Mem Byte → Mem Byte × Length
  | .int8 => cint8
  | .uint8 => cuint8
  | .int16 => cint16
  | .uint16 => cuint16
  | .int32 => cint32
  | .uint32 => cuint32
  | .int64 => cint64
  | .uint64 => cuint64

/-- `mpt_cfloat`, `mpt_cdouble` and `mpt_cldouble` -/
abbrev FloatText := (fmt : Char) → (src : List Char) → (dest : Option Nat) → Mem Byte → Mem Byte × Length

/-- `mpt_convert_number` -/
def convertNumber (floats : FloatText) (src : Option (List Char)) (fmt : Char) (dest : Option Nat)
    (m : Mem Byte) : Mem Byte × Length :=
  match src with
  | none => (m, .ok 0)
  | some text =>
      if fmt = 'c' then
        match text.dropWhile isspace with
        | [] => (m, .ok 0)
        | c :: rest =>
            if isgraph c.toNat = false then (m, .error .badType)
            else (assign dest [.ofNat c.toNat] m, .ok (intOf (text.length - rest.length)))
      else
        match longType fmt with
        | 'b' => cint8 dest src 0 none m
        | 'y' => cuint8 dest src 0 none m
        | 'n' => cint16 dest src 0 none m
        | 'q' => cuint16 dest src 0 none m
        | 'i' => cint32 dest src 0 none m
        | 'u' => cuint32 dest src 0 none m
        -- the unsigned function for the signed type
        | 'x' => cuint64 dest src 0 none m
        | 't' => cuint64 dest src 0 none m
        | 'l' => cuint64 dest src 16 none m
        | 'f' => floats 'f' text dest m
        | 'd' => floats 'd' text dest m
        | 'e' => floats 'e' text dest m
        | _ => (m, .error .badType)

/-! ## What is read -/

/-- The value the C library has for the target type. -/
def got (f : Found) : IntType → Int
  | .int8 | .int16 | .int32 | .int64 => f.signed
  | .uint8 | .uint16 | .uint32 | .uint64 => f.unsigned

/-- What the functions make of an integer in the text. -/
def outcome (t : IntType) (f : Found) (dest : Option Nat) (range : Option (Int × Int)) (m : Mem Byte) :
    Mem Byte × Length :=
  if ¬ t.Holds (got f t) then (m, .error .badValue)
  else if intOf f.extent ≤ 0 then (m, .ok (intOf f.extent))
  else if ¬ within range (got f t) then (m, .error .badValue)
  else (assign dest (bytesOf t.size (got f t)) m, .ok (intOf f.extent))

theorem signed_bounds (f : Found) : int64Min ≤ f.signed ∧ f.signed ≤ int64Max := by
  unfold Found.signed int64Min int64Max
  omega

theorem unsigned_bounds (f : Found) : 0 ≤ f.unsigned ∧ f.unsigned ≤ uint64Max := by
  unfold Found.unsigned uint64Max
  omega

/-- The function behind `mpt_cint8` to `mpt_cuint64`. -/
def getter : IntType → (vlen : Nat) → (src : Option (List Char)) → (base : Nat) → Length × Option Int
  | .int8 | .int16 | .int32 | .int64 => convertInt
  | .uint8 | .uint16 | .uint32 | .uint64 => convertUint

theorem cinteger_getter (t : IntType) : cinteger t = getString (getter t) t := by
  cases t <;> rfl

theorem rejected_eq {α : Sort u} {bad good : Prop} [Decidable bad] [Decidable good] (h : bad ↔ ¬ good)
    (a b : α) : (if bad then a else b) = if good then b else a := by
  by_cases holds : good
  · rw [if_pos holds, if_neg fun out => h.mp out holds]
  · rw [if_neg holds, if_pos (h.mpr holds)]

theorem getter_found {text : List Char} (t : IntType) (found : scan base text = some f) :
    getter t t.size (some text) base =
      if t.Holds (got f t) then (.ok (intOf f.extent), some (got f t))
      else (.error .badValue, none) := by
  have given : text ≠ [] := by
    rintro rfl
    rw [scan_blank rfl] at found
    cases found
  have some : f.extent ≠ 0 := Nat.pos_iff_ne_zero.mp (scan_extent found)
  have low := signed_bounds f
  have high := unsigned_bounds f
  cases t <;>
    simp only [getter, IntType.size, convertInt, convertUint, strtoimax, strtoumax, found, given, some,
      if_false, got] <;>
    apply rejected_eq <;>
    simp only [IntType.Holds, IntType.min, IntType.max] <;>
    omega

theorem getter_none {text : List Char} (t : IntType) (none : scan base text = none) :
    getter t t.size (some text) base =
      if text.all isspace then (.ok 0, .none) else (.error .badType, .none) := by
  cases text with
  | nil => cases t <;> rfl
  | cons c l =>
      cases t <;> simp only [getter, convertInt, convertUint, strtoimax, strtoumax, none, if_true, reduceCtorEq, if_false]

theorem cinteger_found {text : List Char} (t : IntType) (found : scan base text = some f)
    (dest : Option Nat) (range : Option (Int × Int)) (m : Mem Byte) :
    cinteger t dest (some text) base range m = outcome t f dest range m := by
  rw [cinteger_getter, getString, getter_found t found, outcome]
  by_cases holds : t.Holds (got f t)
  · simp only [if_pos holds, if_neg (not_not_intro holds), Option.getD_some]
  · simp only [if_neg holds, if_pos holds]

theorem cinteger_none {text : List Char} (t : IntType) (none : scan base text = none)
    (dest : Option Nat) (range : Option (Int × Int)) (m : Mem Byte) :
    cinteger t dest (some text) base range m =
      (m, if text.all isspace then .ok 0 else .error .badType) := by
  rw [cinteger_getter, getString, getter_none t none]
  cases text.all isspace <;> rfl

/-- A result below zero. -/
def Negative : Length → Prop
  | .error _ => True
  | .ok r => r < 0

/-- The text is read as an integer of the type `u` within the limits, with its extent as the
    result, and else nothing is stored. -/
structure Reads (u : IntType) (base : Nat) (text : List Char) (range : Option (Int × Int))
    (dest : Option Nat) (m : Mem Byte) (out : Mem Byte × Length) : Prop where
  integer : ∀ f, scan base text = some f → u.Holds f.value → within range f.value →
    out.2 = .ok f.extent ∧ Stored u f.value dest m out.1
  blank : text.all isspace → out = (m, .ok 0)
  other : text.all isspace = false →
    (∀ f, scan base text = some f → ¬ (u.Holds f.value ∧ within range f.value)) →
    out.1 = m ∧ Negative out.2

/-- The library has kept what matters of the integer: it is below the limit for a length if it is
    in range, and what is accepted of another integer has a negative length or is out of range. -/
def Kept (t u : IntType) (f : Found) (range : Option (Int × Int)) : Prop :=
  t.Holds (got f t) →
    (u.Holds f.value → within range f.value → f.extent < 2 ^ 31) ∧
    (¬ (u.Holds f.value ∧ within range f.value) →
      intOf f.extent < 0 ∨ 0 < intOf f.extent ∧ ¬ within range (got f t))

theorem intOf_lt (lt : n < 2 ^ 31) : intOf n = n := by
  simp only [intOf, IntType.ofWord, IntType.max, IntType.size]
  omega

theorem lt_of_intOf (same : intOf n = n) : n < 2 ^ 31 := by
  simp only [intOf, IntType.ofWord, IntType.max, IntType.size] at same
  omega

theorem assign_stored {u : IntType} {bytes : List Byte} (size : bytes.length = u.size)
    (same : load u bytes = val) (dest : Option Nat) (m : Mem Byte) :
    Stored u val dest m (assign dest bytes m) := by
  cases dest with
  | none => exact ⟨by simp, by simp, fun _ => rfl⟩
  | some a =>
      refine ⟨?_, ?_, by simp⟩
      · rintro _ ⟨⟩
        have back := Mem.read_write_self m a bytes
        rw [size] at back
        rw [assign, value, back, same]
      · rintro _ i ⟨⟩ out
        apply Mem.write_outside
        rwa [size]

/-- The signed and unsigned values agree with the integer where the type `u` has it. -/
structure Agrees (t u : IntType) (f : Found) (range : Option (Int × Int)) : Prop where
  size : t.size = u.size
  holds : u.Holds f.value → t.Holds (got f t)
  same : u.Holds f.value → load u (bytesOf t.size (got f t)) = f.value
  within : u.Holds f.value → within range f.value → within range (got f t)

theorem outcome_reads {text : List Char} (found : scan base text = some f) (agrees : Agrees t u f range)
    (dest : Option Nat) (m : Mem Byte) :
    Reads u base text range dest m (outcome t f dest range m) ↔ Kept t u f range := by
  have positive := scan_extent found
  have sight : text.all isspace = false := by
    cases blank : text.all isspace with
    | false => rfl
    | true => rw [scan_blank blank] at found; cases found
  constructor
  · intro reads holds
    constructor
    · intro fits inside
      obtain ⟨done, -⟩ := reads.integer f found fits inside
      rw [outcome, if_neg (not_not_intro holds)] at done
      apply lt_of_intOf
      split at done
      · exact Except.ok.inj done
      · split at done
        · cases done
        · exact Except.ok.inj done
    · intro out
      obtain ⟨-, negative⟩ := reads.other sight fun g same => by
        rw [found] at same
        cases same
        exact out
      rw [outcome, if_neg (not_not_intro holds)] at negative
      split at negative
      · exact .inl negative
      · split at negative
        · exact .inr ⟨by omega, ‹_›⟩
        · exact absurd negative (by simp only [Negative]; omega)
  · intro kept
    constructor
    · intro g same fits inside
      rw [found] at same
      cases same
      have holds := agrees.holds fits
      have length := intOf_lt ((kept holds).1 fits inside)
      rw [outcome, if_neg (not_not_intro holds), if_neg (by omega),
        if_neg (not_not_intro (agrees.within fits inside)), length]
      refine ⟨rfl, assign_stored ?_ (agrees.same fits) dest m⟩
      rw [length_bytesOf, agrees.size]
    · intro blank
      rw [blank] at sight
      cases sight
    · intro _ other
      have out := other f found
      rw [outcome]
      split
      · exact ⟨rfl, trivial⟩
      · rename_i holds
        rcases (kept (Decidable.not_not.mp holds)).2 out with below | ⟨above, outside⟩
        · rw [if_pos (by omega)]
          exact ⟨rfl, below⟩
        · rw [if_neg (by omega), if_pos outside]
          exact ⟨rfl, trivial⟩

theorem none_reads {text : List Char} (none : scan base text = none) :
    Reads u base text range dest m (m, if text.all isspace then .ok 0 else .error .badType) where
  integer f found := by
    rw [none] at found
    cases found
  blank blank := by rw [if_pos blank]
  other sight _ := by
    rw [if_neg (by simp [sight])]
    exact ⟨rfl, trivial⟩

theorem agrees_self (t : IntType) (f : Found) (range : Option (Int × Int)) : Agrees t t f range := by
  have same : t.Holds f.value → got f t = f.value := by
    intro holds
    cases t <;> simp only [got]
    all_goals
      first
      | apply signed_eq
        simp only [IntType.Holds, IntType.min, IntType.max] at *
        omega
      | apply unsigned_eq
        simp only [IntType.Holds, IntType.min, IntType.max] at *
        omega
  constructor
  · rfl
  · intro holds
    rwa [same holds]
  · intro holds
    rw [same holds, load_bytesOf holds]
  · intro holds inside
    rwa [same holds]

/-- A signed word has the bits that the unsigned conversion gives. -/
theorem agrees_word (f : Found) : Agrees .uint64 .int64 f none := by
  have bounds := unsigned_bounds f
  constructor
  · rfl
  · intro _
    exact bounds
  · intro holds
    obtain ⟨low, high⟩ := holds
    have word := wordOf_bytesOf 8 f.unsigned
    have wraps : f.unsigned = f.value % 2 ^ 64 := by
      unfold Found.unsigned
      rw [if_neg]
      have magnitude := value_natAbs f
      simp only [uint64Max, IntType.min, IntType.max] at *
      omega
    change load .int64 (bytesOf 8 f.unsigned) = f.value
    simp only [load, IntType.ofWord, IntType.size, IntType.min, IntType.max] at word low high ⊢
    omega
  · exact fun _ _ => trivial

/-- The type of the function that `mpt_convert_number` calls. -/
def called : IntType → IntType
  | .int64 => .uint64
  | t => t

theorem convertNumber_target (floats : FloatText) (text : List Char) (known : target fmt = some u)
    (dest : Option Nat) (m : Mem Byte) :
    convertNumber floats (some text) fmt dest m = cinteger (called u) dest (some text) 0 none m := by
  rcases target_cases known with h | h | h | h | h | h | h | h | h <;> obtain ⟨rfl, rfl⟩ := h <;> rfl

theorem agrees_called (u : IntType) (f : Found) : Agrees (called u) u f none := by
  cases u with
  | int64 => exact agrees_word f
  | _ => exact agrees_self _ f none

/-- An integer of the type is read by `mpt_convert_number`. -/
theorem convertNumber_integer (floats : FloatText) {text : List Char} (known : target fmt = some u)
    (found : scan 0 text = some f) (holds : u.Holds f.value) (short : f.extent < 2 ^ 31)
    (dest : Option Nat) (m : Mem Byte) :
    (convertNumber floats (some text) fmt dest m).2 = .ok f.extent ∧
      Stored u f.value dest m (convertNumber floats (some text) fmt dest m).1 := by
  rw [convertNumber_target floats text known, cinteger_found _ found]
  have kept : Kept (called u) u f none := fun _ =>
    ⟨fun _ _ => short, fun out => absurd ⟨holds, trivial⟩ out⟩
  exact ((outcome_reads found (agrees_called u f) dest m).mpr kept).integer f found holds trivial

/-- Integers are read from text as they are, unless the value that the C library has brought into
    64 bits is taken for another one, or the text is too long for an `int`. -/
theorem reads_integers (text : List Char) (dest : Option Nat) (m : Mem Byte) :
    (∀ t base range,
      Reads t base text range dest m (cinteger t dest (some text) base range m) ↔
        ∀ f, scan base text = some f → Kept t t f range) ∧
    (∀ floats fmt u, target fmt = some u →
      (Reads u 0 text none dest m (convertNumber floats (some text) fmt dest m) ↔
        ∀ f, scan 0 text = some f → Kept (called u) u f none)) := by
  constructor
  · intro t base range
    cases found : scan base text with
    | none =>
        rw [cinteger_none t found]
        exact ⟨fun _ _ h => (by cases h), fun _ => none_reads found⟩
    | some f =>
        rw [cinteger_found t found, outcome_reads found (agrees_self t f range)]
        simp
  · intro floats fmt u known
    rw [convertNumber_target floats text known]
    cases found : scan 0 text with
    | none =>
        rw [cinteger_none _ found]
        exact ⟨fun _ _ h => (by cases h), fun _ => none_reads found⟩
    | some f =>
        rw [cinteger_found _ found, outcome_reads found (agrees_called u f)]
        simp

/-- `-1` for an unsigned type. -/
theorem sign_accepted :
    ¬ ∀ t base text range dest m,
      Reads t base text range dest m (cinteger t dest (some text) base range m) := by
  intro all
  have reads := all .uint64 10 ['-', '1'] none none (fun _ => 0)
  rw [cinteger_found (f := ⟨true, 1, 2⟩) _ (by decide), outcome_reads (by decide) (agrees_self _ _ _)] at reads
  have wrong := (reads (by decide)).2 (by decide)
  simp [within, intOf, IntType.ofWord, IntType.max] at wrong

end Mpt.Number
