import Mpt.Number.ConvertInt

/-! # Integers to text

`mpt_number_tostring` prints one number into a buffer of limited size, with the width and the
flags of a format.  Decimal text is read back by `mpt_convert_number`.
-/

namespace Mpt.Number

/-- `struct value_format` -/
structure ValueFormat where
  flags : BitVec 16
  width : Byte
  dec : Byte
  deriving Repr, DecidableEq

/-- `MPT_VALFMT_INIT` -/
def ValueFormat.init : ValueFormat := ⟨0, 0, 0⟩

namespace Flag

def intHex : BitVec 16 := 0x1
def intOctal : BitVec 16 := 0x2
def intFlags : BitVec 16 := 0xf
def fltHex : BitVec 16 := 0x10
def scientific : BitVec 16 := 0x20
def numberHex : BitVec 16 := intHex ||| fltHex
def sign : BitVec 16 := 0x100
def left : BitVec 16 := 0x200

end Flag

def byteOf (c : Char) : Byte := .ofNat c.toNat

/-- The text of floating point numbers, for a type code, with sign, the flags, width and decimals. -/
abbrev FloatPrint :=
  (type : Char) → (sgn : Bool) → (flg : BitVec 16) → (wd dec : Nat) → Mem Byte → Option Nat →
    Except Error (List Char)

/-- `snprintf` of a text -/
def snprintf (m : Mem Byte) (dest left : Nat) (text : List Char) : Mem Byte :=
  if left = 0 then m else m.write dest ((text.take (left - 1)).map byteOf ++ [0])

/-- Blanks in front up to the field width. -/
def padFront (wd : Nat) (text : List Char) : List Char :=
  List.replicate (wd - text.length) ' ' ++ text

/-- Sign and digits in a radix. -/
def intText (radix : Nat) (plus : Bool) (v : Int) : List Char :=
  (if v < 0 then ['-'] else if plus then ['+'] else []) ++ Nat.toDigits radix v.natAbs

/-- The cases `'y'`, `'q'`, `'u'` and `'t'` -/
def unsignedText (t : IntType) (flg : BitVec 16) (wd : Nat) (m : Mem Byte) (arg : Option Nat) :
    Except Error (List Char) :=
  if flg &&& Flag.intFlags = 0 then .ok (padFront wd (intText 10 false (value t m arg)))
  else if flg &&& Flag.intHex ≠ 0 then .ok (padFront wd (intText 16 false (value t m arg)))
  else if flg &&& Flag.intOctal ≠ 0 then .ok (padFront wd (intText 8 false (value t m arg)))
  else .error .badValue

/-- The cases `'b'`, `'n'`, `'i'` and `'x'`, which go on with the unsigned type. -/
def signedText (t u : IntType) (sgn : Bool) (flg : BitVec 16) (wd : Nat) (m : Mem Byte)
    (arg : Option Nat) : Except Error (List Char) :=
  if flg &&& Flag.intFlags = 0 then .ok (padFront wd (intText 10 sgn (value t m arg)))
  else unsignedText u flg wd m arg

/-- What is done after the print. -/
def finish (fmt : ValueFormat) (flg : BitVec 16) (dest left len : Nat) (m : Mem Byte) :
    Mem Byte × Except Error Nat :=
  if left ≤ len then (m, .error .missingBuffer)
  else if flg &&& Flag.left ≠ 0 then
    if left < fmt.width.toNat then (m, .error .missingBuffer)
    else
      let wd := (fmt.width - .ofNat len).toNat
      let m := m.write (dest + len) (List.replicate wd 32)
      (if len + wd < left then m.set (dest + len + wd) 0 else m, .ok (len + wd))
  else (m, .ok len)

/-- The width that is printed: `if (fmt.flags & MPT_VALFMT(Left)) wd = 0` -/
def ValueFormat.wd (fmt : ValueFormat) : Nat :=
  if fmt.flags &&& Flag.left ≠ 0 then 0 else fmt.width.toNat

/-- `mpt_number_tostring` -/
def numberTostring (floats : FloatPrint) (type : Char) (arg : Option Nat) (fmt : ValueFormat)
    (dest left : Nat) (m : Mem Byte) : Mem Byte × Except Error Nat :=
  if type = '\x00' then (m, .error .badType)
  else
    let flg := fmt.flags &&& 0xff
    let sgn : Bool := fmt.flags &&& Flag.sign ≠ 0
    let dec := fmt.dec.toNat
    let wd := fmt.wd
    if left < wd then (m, .error .missingBuffer)
    else
      let text : Except Error (List Char) :=
        match longType type with
        | 'c' => .ok (padFront wd [Char.ofNat ((arg.map m).getD 0).toNat])
        | 'b' => signedText .int8 .uint8 sgn flg wd m arg
        | 'y' => unsignedText .uint8 flg wd m arg
        | 'n' => signedText .int16 .uint16 sgn flg wd m arg
        | 'q' => unsignedText .uint16 flg wd m arg
        | 'i' => signedText .int32 .uint32 sgn flg wd m arg
        | 'u' => unsignedText .uint32 flg wd m arg
        | 'x' => signedText .int64 .uint64 sgn flg wd m arg
        | 't' => unsignedText .uint64 flg wd m arg
        | 'f' => floats 'f' sgn flg wd dec m arg
        | 'd' => floats 'd' sgn flg wd dec m arg
        | 'e' => floats 'e' sgn flg wd dec m arg
        | _ => .error .badType
      match text with
      | .error e => (m, .error e)
      | .ok text => finish fmt flg dest left text.length (snprintf m dest left text)

/-! ## The text of a number -/

/-- The unsigned type of the size. -/
def IntType.unsigned : IntType → IntType
  | int8 | uint8 => uint8
  | int16 | uint16 => uint16
  | int32 | uint32 => uint32
  | int64 | uint64 => uint64

def IntType.isSigned : IntType → Bool
  | int8 | int16 | int32 | int64 => true
  | uint8 | uint16 | uint32 | uint64 => false

/-- The format has integer flags that mean something, or none. -/
def ValueFormat.Listed (fmt : ValueFormat) : Prop :=
  fmt.flags &&& Flag.intFlags = 0 ∨ fmt.flags &&& Flag.intHex ≠ 0 ∨ fmt.flags &&& Flag.intOctal ≠ 0

/-- The text of a number: decimal with its sign, or the bits as hexadecimal or octal number. -/
def numberText (t : IntType) (fmt : ValueFormat) (m : Mem Byte) (arg : Option Nat) : List Char :=
  if fmt.flags &&& Flag.intFlags = 0 then
    intText 10 (t.isSigned && fmt.flags &&& Flag.sign ≠ 0) (value t m arg)
  else if fmt.flags &&& Flag.intHex ≠ 0 then intText 16 false (value t.unsigned m arg)
  else intText 8 false (value t.unsigned m arg)

/-- The text in its field. -/
def ValueFormat.padded (fmt : ValueFormat) (text : List Char) : List Char :=
  if fmt.flags &&& Flag.left ≠ 0 then text ++ List.replicate (fmt.width.toNat - text.length) ' '
  else padFront fmt.width.toNat text

/-- Nothing is written outside of the buffer, and the text is there if it is not too long. -/
structure Prints (fmt : ValueFormat) (text : List Char) (dest left : Nat) (m : Mem Byte)
    (out : Mem Byte × Except Error Nat) : Prop where
  inside : ∀ i, i < dest ∨ dest + left ≤ i → out.1 i = m i
  printed : out.2 = .error .missingBuffer ∨
    out.2 = .ok (fmt.padded text).length ∧
      out.1.read dest (fmt.padded text).length = (fmt.padded text).map byteOf

/-- Width and text as the code has them: nothing behind the text. -/
def ValueFormat.field (fmt : ValueFormat) (text : List Char) : List Char :=
  padFront fmt.wd text

theorem flags_low {flags mask : BitVec 16} (low : 0xff &&& mask = mask) :
    flags &&& 0xff &&& mask = flags &&& mask := by
  rw [BitVec.and_assoc, low]

/-- The left flag is not among the flags that are left for the padding. -/
theorem left_masked (flags : BitVec 16) : flags &&& 0xff &&& Flag.left = 0 := by
  rw [BitVec.and_assoc, show (0xff : BitVec 16) &&& Flag.left = 0#16 from rfl, BitVec.and_zero]
  rfl

theorem length_padFront (wd : Nat) (text : List Char) :
    (padFront wd text).length = max wd text.length := by
  simp [padFront]
  omega

theorem unsignedText_eq (t : IntType) {fmt : ValueFormat} (listed : fmt.Listed) (wd : Nat)
    (m : Mem Byte) (arg : Option Nat) (unsigned : t.unsigned = t) (sign : t.isSigned = false) :
    unsignedText t (fmt.flags &&& 0xff) wd m arg = .ok (padFront wd (numberText t fmt m arg)) := by
  simp only [unsignedText, numberText, flags_low (show 0xff &&& Flag.intFlags = Flag.intFlags from rfl),
    flags_low (show 0xff &&& Flag.intHex = Flag.intHex from rfl),
    flags_low (show 0xff &&& Flag.intOctal = Flag.intOctal from rfl), unsigned, sign, Bool.false_and]
  split
  · rfl
  · split
    · rfl
    · rw [if_pos]
      rcases listed with plain | hex | octal <;> first | contradiction | assumption

theorem signedText_eq (t u : IntType) {fmt : ValueFormat} (listed : fmt.Listed) (wd : Nat)
    (m : Mem Byte) (arg : Option Nat) (unsigned : t.unsigned = u) (same : u.unsigned = u)
    (sign : t.isSigned = true) (sign' : u.isSigned = false) :
    signedText t u (fmt.flags &&& Flag.sign ≠ 0) (fmt.flags &&& 0xff) wd m arg =
      .ok (padFront wd (numberText t fmt m arg)) := by
  rw [signedText, unsignedText_eq u listed wd m arg same sign']
  simp only [numberText, flags_low (show 0xff &&& Flag.intFlags = Flag.intFlags from rfl), unsigned, same,
    sign, sign', Bool.true_and]
  split <;> rfl

theorem finish_eq (fmt : ValueFormat) (dest left len : Nat) (m : Mem Byte) :
    finish fmt (fmt.flags &&& 0xff) dest left len m =
      (m, if left ≤ len then .error .missingBuffer else .ok len) := by
  unfold finish
  rw [left_masked]
  split <;> simp

/-- The function on integers: the text in its field, if there is room for it. -/
theorem numberTostring_eq (floats : FloatPrint) (known : target type = some t) (arg : Option Nat)
    {fmt : ValueFormat} (listed : fmt.Listed) (dest left : Nat) (m : Mem Byte) :
    numberTostring floats type arg fmt dest left m =
      if left < fmt.wd then
        (m, .error .missingBuffer)
      else
        (snprintf m dest left (fmt.field (numberText t fmt m arg)),
          if left ≤ (fmt.field (numberText t fmt m arg)).length then .error .missingBuffer
          else .ok (fmt.field (numberText t fmt m arg)).length) := by
  rcases target_cases known with h | h | h | h | h | h | h | h | h <;> obtain ⟨rfl, rfl⟩ := h
  all_goals
    simp only [numberTostring, longType, typeInt, sizeofLong, Char.reduceEq, if_false, if_true]
    split
    · rfl
    · first
      | rw [unsignedText_eq _ listed _ m arg (by rfl) (by rfl)]
      | rw [signedText_eq _ _ listed _ m arg (by rfl) (by rfl) (by rfl) (by rfl)]
      exact finish_eq fmt dest left _ _

/-! ## Reading back -/

theorem digitValue_digitChar (lt : d < 10) : digitValue d.digitChar = some d := by
  have cases : d = 0 ∨ d = 1 ∨ d = 2 ∨ d = 3 ∨ d = 4 ∨ d = 5 ∨ d = 6 ∨ d = 7 ∨ d = 8 ∨ d = 9 := by
    omega
  rcases cases with h | h | h | h | h | h | h | h | h | h <;> subst h <;> rfl

theorem number_append (base : Nat) (l l' : List Char) (n : Nat) :
    number base (l ++ l') n = number base l' (number base l n) := by
  simp [number, List.foldl_append]

theorem number_toDigits (n : Nat) : number 10 (Nat.toDigits 10 n) 0 = n := by
  induction n using Nat.strongRecOn with
  | ind n ih =>
      rw [Nat.toDigits_eq_if (by omega)]
      split
      · simp [number, digitValue_digitChar ‹n < 10›]
      · rw [number_append, ih (n / 10) (by omega)]
        simp only [number, List.foldl_cons, List.foldl_nil,
          digitValue_digitChar (show n % 10 < 10 by omega), Option.getD_some]
        omega

theorem isDigit_toDigits (n : Nat) : ∀ c ∈ Nat.toDigits 10 n, isDigit 10 c = true := by
  induction n using Nat.strongRecOn with
  | ind n ih =>
      rw [Nat.toDigits_eq_if (by omega)]
      split
      · simp [isDigit, digitValue_digitChar ‹n < 10›]
        omega
      · intro c mem
        rcases List.mem_append.mp mem with front | last
        · exact ih (n / 10) (by omega) c front
        · obtain rfl := List.mem_singleton.mp last
          simp [isDigit, digitValue_digitChar (show n % 10 < 10 by omega)]
          omega

/-- A number starts with the digit zero only when it is zero. -/
theorem head_toDigits (pos : 0 < n) : ∃ d l, Nat.toDigits 10 n = Nat.digitChar d :: l ∧ 0 < d ∧ d < 10 := by
  induction n using Nat.strongRecOn with
  | ind n ih =>
      rw [Nat.toDigits_eq_if (by omega)]
      split
      · exact ⟨n, [], rfl, pos, ‹_›⟩
      · obtain ⟨d, l, eq, range⟩ := ih (n / 10) (by omega) (by omega)
        exact ⟨d, l ++ [(n % 10).digitChar], by rw [eq]; rfl, range⟩

theorem digitChar_plain (lt : d < 10) :
    isspace d.digitChar = false ∧ d.digitChar ≠ '-' ∧ d.digitChar ≠ '+' := by
  have cases : d = 0 ∨ d = 1 ∨ d = 2 ∨ d = 3 ∨ d = 4 ∨ d = 5 ∨ d = 6 ∨ d = 7 ∨ d = 8 ∨ d = 9 := by
    omega
  rcases cases with h | h | h | h | h | h | h | h | h | h <;> subst h <;> decide

theorem dropWhile_blanks (k : Nat) (l : List Char) :
    (List.replicate k ' ' ++ l).dropWhile isspace = l.dropWhile isspace := by
  induction k with
  | zero => rfl
  | succ k ih => exact ih

/-- The base of decimal text is found, and all of the text is its digits. -/
theorem scanBase_toDigits (n : Nat) :
    ∃ b, scanBase 0 (Nat.toDigits 10 n) = (b, Nat.toDigits 10 n) ∧
      (Nat.toDigits 10 n).takeWhile (isDigit b) = Nat.toDigits 10 n ∧
      number b (Nat.toDigits 10 n) 0 = n := by
  by_cases zero : n = 0
  · subst zero
    exact ⟨8, rfl, rfl, rfl⟩
  · refine ⟨10, ?_, ?_, number_toDigits n⟩
    · obtain ⟨d, l, eq, pos, lt⟩ := head_toDigits (Nat.pos_iff_ne_zero.mpr zero)
      have ne : d.digitChar ≠ '0' := by
        rw [ne_eq, Nat.digitChar_eq_zero]
        omega
      rw [eq]
      unfold scanBase
      split <;> simp_all
    · rw [List.takeWhile_eq_self_iff]
      exact isDigit_toDigits n

/-- Decimal text behind blanks is found with its value and whole length. -/
theorem scan_intText (k : Nat) (plus : Bool) (v : Int) :
    scan 0 (List.replicate k ' ' ++ intText 10 plus v) =
      some ⟨decide (v < 0), v.natAbs, k + (intText 10 plus v).length⟩ := by
  obtain ⟨b, base, digits, same⟩ := scanBase_toDigits v.natAbs
  have some : Nat.toDigits 10 v.natAbs ≠ [] := Nat.toDigits_ne_nil
  have front : scanSign ((intText 10 plus v).dropWhile isspace) =
      (decide (v < 0), Nat.toDigits 10 v.natAbs) := by
    unfold intText
    by_cases negative : v < 0
    · simp [negative, scanSign, isspace]
    · cases plus with
      | true => simp [negative, scanSign, isspace]
      | false =>
          obtain ⟨d, l, eq, lt⟩ : ∃ d l, Nat.toDigits 10 v.natAbs = Nat.digitChar d :: l ∧ d < 10 := by
            by_cases zero : v.natAbs = 0
            · rw [zero]
              exact ⟨0, [], rfl, by omega⟩
            · obtain ⟨d, l, eq, -, lt⟩ := head_toDigits (Nat.pos_iff_ne_zero.mpr zero)
              exact ⟨d, l, eq, lt⟩
          obtain ⟨space, minus, plus⟩ := digitChar_plain lt
          simp only [negative, Bool.false_eq_true, if_false, List.nil_append, eq, List.dropWhile_cons, space]
          unfold scanSign
          split <;> simp_all
  unfold scan
  rw [dropWhile_blanks]
  simp only [front, base, digits, same, some, if_false]
  rw [if_neg (by omega)]
  simp only [intText, List.length_append, List.length_replicate]
  congr 2
  omega

/-! ## Printed and read -/

theorem snprintf_outside (m : Mem Byte) (dest left : Nat) (text : List Char)
    (h : i < dest ∨ dest + left ≤ i) : snprintf m dest left text i = m i := by
  unfold snprintf
  split
  · rfl
  · apply Mem.write_outside
    simp only [List.length_append, List.length_map, List.length_take, List.length_singleton]
    omega

theorem snprintf_read (m : Mem Byte) (dest : Nat) {text : List Char} (room : text.length < left) :
    (snprintf m dest left text).read dest text.length = text.map byteOf := by
  have all : text.take (left - 1) = text := List.take_of_length_le (by omega)
  rw [snprintf, if_neg (by omega), all, Mem.write_append, Mem.read_write_disjoint _ _ (by simp)]
  have same := Mem.read_write_self m dest (text.map byteOf)
  rwa [List.length_map] at same

/-- A zero stands behind the text. -/
theorem snprintf_end (m : Mem Byte) (dest : Nat) {text : List Char} (room : text.length < left) :
    snprintf m dest left text (dest + text.length) = 0 := by
  have all : text.take (left - 1) = text := List.take_of_length_le (by omega)
  rw [snprintf, if_neg (by omega), all, Mem.write_inside _ _ _ (by simp)]
  simp

theorem prints_iff (fmt : ValueFormat) (text : List Char) (dest left : Nat) (m : Mem Byte) :
    Prints fmt text dest left m
        (if left < fmt.wd then (m, .error .missingBuffer)
        else (snprintf m dest left (fmt.field text),
          if left ≤ (fmt.field text).length then .error .missingBuffer
          else .ok (fmt.field text).length)) ↔
      ¬ (fmt.flags &&& Flag.left ≠ 0 ∧ text.length < fmt.width.toNat ∧ text.length < left) := by
  have outside : ∀ i, i < dest ∨ dest + left ≤ i → snprintf m dest left (fmt.field text) i = m i :=
    fun i h => snprintf_outside m dest left _ h
  have inside : left ≤ (fmt.field text).length ∨ (fmt.field text).length < left := by omega
  by_cases behind : fmt.flags &&& Flag.left ≠ 0
  · have wd : fmt.wd = 0 := if_pos behind
    have field : fmt.field text = text := by simp [ValueFormat.field, wd, padFront]
    have padded : fmt.padded text = text ++ List.replicate (fmt.width.toNat - text.length) ' ' :=
      if_pos behind
    rw [wd, if_neg (by omega)]
    rw [field] at outside inside ⊢
    rcases inside with long | room
    · rw [if_pos long]
      exact ⟨fun _ h => by omega, fun _ => ⟨outside, .inl rfl⟩⟩
    · rw [if_neg (by omega)]
      constructor
      · rintro ⟨-, printed⟩ ⟨-, short, -⟩
        rcases printed with missing | ⟨length, -⟩
        · cases missing
        · have := Except.ok.inj length
          rw [padded, List.length_append, List.length_replicate] at this
          omega
      · intro full
        have none : fmt.width.toNat - text.length = 0 := by
          by_contra some
          exact full ⟨behind, by omega, room⟩
        have same : fmt.padded text = text := by
          rw [padded, none]
          exact List.append_nil text
        refine ⟨outside, .inr ⟨?_, ?_⟩⟩
        · rw [same]
        · rw [same]
          exact snprintf_read m dest room
  · have same : fmt.padded text = fmt.field text := by
      rw [ValueFormat.padded, if_neg behind, ValueFormat.field, ValueFormat.wd, if_neg behind]
    apply iff_of_true
    · split
      · exact ⟨fun _ _ => rfl, .inl rfl⟩
      · rcases inside with long | room
        · rw [if_pos long]
          exact ⟨outside, .inl rfl⟩
        · rw [if_neg (by omega)]
          refine ⟨outside, .inr ⟨?_, ?_⟩⟩
          · rw [same]
          · rw [same]
            exact snprintf_read m dest room
    · exact fun h => behind h.1

/-- A text that the conversion of the same type code reads as the value. -/
def ReadsBack (floats : FloatText) (type : Char) (t : IntType) (val : Int) (text : List Char) : Prop :=
  ∀ dest m, (convertNumber floats (some text) type dest m).2 = .ok text.length ∧
    Stored t val dest m (convertNumber floats (some text) type dest m).1

theorem length_intText {t : IntType} (plus : Bool) (holds : t.Holds v) :
    (intText 10 plus v).length ≤ 21 := by
  have digits : (Nat.toDigits 10 v.natAbs).length ≤ 20 := by
    rw [Nat.length_toDigits_le_iff (by omega) (by omega)]
    obtain ⟨low, high⟩ := holds
    cases t <;> simp only [IntType.min, IntType.max] at low high <;> omega
  rw [intText, List.length_append]
  have sign : (if v < 0 then ['-'] else if plus then ['+'] else []).length ≤ 1 := by
    split
    · rfl
    · split <;> simp
  omega

theorem reads_back (floats : FloatText) (known : target type = some t) (holds : t.Holds v)
    (plus : Bool) (small : wd < 256) : ReadsBack floats type t v (padFront wd (intText 10 plus v)) := by
  intro dest m
  have length := length_padFront wd (intText 10 plus v)
  have short := length_intText plus holds
  have found := scan_intText (wd - (intText 10 plus v).length) plus v
  have val : Found.value ⟨decide (v < 0), v.natAbs, wd - (intText 10 plus v).length +
      (intText 10 plus v).length⟩ = v := by
    simp only [Found.value, decide_eq_true_eq]
    omega
  obtain ⟨done, stored⟩ := convertNumber_integer floats known found (by rwa [val])
    (by simp only; omega) dest m
  rw [val] at stored
  refine ⟨?_, stored⟩
  rw [padFront, done, ← padFront, length]
  congr 1
  simp only
  omega

/-- An integer is printed into its field, but for the blanks behind it that the left flag asks for;
    decimal text is ended by a zero and reads back. -/
theorem prints_integers (floats : FloatPrint) (floats' : FloatText) {type : Char} {t : IntType}
    (known : target type = some t) (arg : Option Nat) {fmt : ValueFormat} (listed : fmt.Listed)
    (dest left : Nat) (m : Mem Byte) :
    (Prints fmt (numberText t fmt m arg) dest left m
        (numberTostring floats type arg fmt dest left m) ↔
      ¬ (fmt.flags &&& Flag.left ≠ 0 ∧ (numberText t fmt m arg).length < fmt.width.toNat ∧
        (numberText t fmt m arg).length < left)) ∧
    (fmt.flags &&& Flag.intFlags = 0 →
      ∀ n, (numberTostring floats type arg fmt dest left m).2 = .ok n →
        ∃ text, (numberTostring floats type arg fmt dest left m).1.read dest n = text.map byteOf ∧
          (numberTostring floats type arg fmt dest left m).1 (dest + n) = 0 ∧
          text.length = n ∧ ReadsBack floats' type t (value t m arg) text) := by
  rw [numberTostring_eq floats known arg listed]
  refine ⟨prints_iff fmt _ dest left m, ?_⟩
  intro decimal n done
  split at done
  · cases done
  · rename_i wide
    rw [if_neg wide]
    simp only at done ⊢
    split at done
    · cases done
    · cases done
      refine ⟨_, snprintf_read m dest (by omega), snprintf_end m dest (by omega), rfl, ?_⟩
      rw [ValueFormat.field, numberText, if_pos decimal]
      apply reads_back floats' known (holds_value t m arg)
      have := fmt.width.toNat_lt
      unfold ValueFormat.wd
      split <;> omega

theorem prints_seven :
    (Prints ⟨0, 5, 0⟩ ['7'] 8 6 (fun _ => 7)
        (numberTostring (fun _ _ _ _ _ _ _ => .error .badValue) 'y' (some 0) ⟨0, 5, 0⟩ 8 6 fun _ => 7) ↔
      ¬ ((0 : BitVec 16) &&& Flag.left ≠ 0 ∧ 1 < 5 ∧ 1 < 6)) :=
  (prints_integers _ (fun _ _ _ m => (m, .ok 0)) (show target 'y' = some .uint8 from rfl) (some 0)
    (show ValueFormat.Listed ⟨0, 5, 0⟩ from .inl rfl) 8 6 fun _ => 7).1

/-- With the left flag and a width of five, the text is only the digit. -/
theorem left_not_padded :
    ¬ ∀ (floats : FloatPrint) type t arg (fmt : ValueFormat) dest left m, target type = some t →
      fmt.Listed → Prints fmt (numberText t fmt m arg) dest left m
        (numberTostring floats type arg fmt dest left m) := by
  intro all
  have prints := all (fun _ _ _ _ _ _ _ => .error .badValue) 'y' .uint8 (some 0) ⟨Flag.left, 5, 0⟩ 8 6
    (fun _ => 7) rfl (.inl rfl)
  rw [numberTostring_eq _ rfl _ (.inl rfl), prints_iff] at prints
  exact prints ⟨by decide, by decide, by decide⟩

end Mpt.Number
