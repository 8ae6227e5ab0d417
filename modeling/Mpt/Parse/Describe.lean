import Mpt.Parse.Layout

/-! # Descriptions of formats and limits

A format is described by its characters one after the other.  The limits of names are
described by a letter for every kind of character that they can have, in upper case for
sections and in lower case for options.
-/

namespace Mpt.Parse

/-- The letters that stand for a flag. -/
def NameFlag.letters : NameFlag → List Byte
  | numStart => [102, 110]
  | numCont => [99, 110]
  | special => [115]
  | space => [119]
  | empty => [101]
  | binary => [98]

/-- A description has a letter for a flag, in the case for sections or in that for options. -/
def Allows (str : List Byte) (upper : Bool) (flag : NameFlag) : Prop :=
  ∃ c ∈ str.takeWhile (! isSpace ·), isUpper c = upper ∧ toLower c ∈ flag.letters

/-- A character is one that a flag is not needed for, or the flag is there. -/
def Passes (allowed : NameFlag → Prop) (first : Bool) (c : Byte) : Prop :=
  ∀ flag err, nameNeeds first c = some (flag, err) → allowed flag

theorem has_or (a b : Nat) (flag : NameFlag) :
    has (a ||| b) flag.bit = true ↔ has a flag.bit = true ∨ has b flag.bit = true := by
  unfold has
  rw [Nat.and_or_distrib_right]
  simp only [ne_eq, decide_eq_true_eq, Nat.or_eq_zero_iff]
  exact not_and_or

/-- A letter has the flags that it stands for. -/
theorem acceptBits_has {c : Byte} {bits : Nat} (letter : acceptBits c = some bits) (flag : NameFlag) :
    has bits flag.bit = true ↔ toLower c ∈ flag.letters := by
  unfold acceptBits at letter
  generalize toLower c = l at letter ⊢
  have byte (n : Nat) (small : n < 256) (eq : l.toNat = n) : l = .ofNat n := by
    apply UInt8.toNat_inj.mp
    rw [eq, UInt8.toNat_ofNat', Nat.mod_eq_of_lt small]
  split at letter
  · next eq =>
      cases letter
      rw [byte _ (by decide) eq]
      cases flag <;> decide
  · next eq =>
      cases letter
      rw [byte _ (by decide) eq]
      cases flag <;> decide
  · next eq =>
      cases letter
      rw [byte _ (by decide) eq]
      cases flag <;> decide
  · next eq =>
      cases letter
      rw [byte _ (by decide) eq]
      cases flag <;> decide
  · next eq =>
      cases letter
      rw [byte _ (by decide) eq]
      cases flag <;> decide
  · next eq =>
      cases letter
      rw [byte _ (by decide) eq]
      cases flag <;> decide
  · next eq =>
      cases letter
      rw [byte _ (by decide) eq]
      cases flag <;> decide
  · cases letter

theorem allows_cons {c : Byte} {str : List Byte} (visible : isSpace c = false) (upper : Bool)
    (flag : NameFlag) : Allows (c :: str) upper flag ↔
      (isUpper c = upper ∧ toLower c ∈ flag.letters) ∨ Allows str upper flag := by
  unfold Allows
  rw [List.takeWhile_cons, visible]
  simp

/-- The letters up to the first space add their flags. -/
theorem acceptLoop_allows {sect opt len : Nat} {str : List Byte} {sect' opt' len' : Nat}
    (ok : acceptLoop sect opt len str = .ok (sect', opt', len')) (flag : NameFlag) :
    (has sect' flag.bit = true ↔ has sect flag.bit = true ∨ Allows str true flag) ∧
      (has opt' flag.bit = true ↔ has opt flag.bit = true ∨ Allows str false flag) := by
  induction str generalizing sect opt len with
  | nil =>
      cases ok
      simp [Allows]
  | cons c str ih =>
      rw [acceptLoop] at ok
      by_cases space : isSpace c = true
      · rw [if_pos space] at ok
        cases ok
        simp [Allows, space]
      · have visible : isSpace c = false := by simpa using space
        rw [if_neg space] at ok
        rw [allows_cons visible, allows_cons visible]
        split at ok
        · cases ok
        · next bits letter =>
          have stands := acceptBits_has letter flag
          by_cases upper : isUpper c = true
          · rw [if_pos upper] at ok
            obtain ⟨s, o⟩ := ih ok
            rw [has_or, stands] at s
            rw [s, o, upper]
            simp [or_assoc]
          · rw [if_neg upper] at ok
            obtain ⟨s, o⟩ := ih ok
            rw [has_or, stands] at o
            rw [s, o]
            simp [upper, or_assoc]

/-- A name passes when each of its characters does. -/
theorem ncheckLoop_iff (take : Nat) (first : Bool) (name : List Byte) :
    ncheckLoop take first name = .ok () ↔ ∀ i c, name[i]? = some c →
      Passes (fun flag => has take flag.bit = true) (first && i == 0) c := by
  induction name generalizing first with
  | nil => simp [ncheckLoop]
  | cons c name ih =>
      have rest : (∀ i x, (c :: name)[i]? = some x →
          Passes (fun flag => has take flag.bit = true) (first && i == 0) x) ↔
          Passes (fun flag => has take flag.bit = true) first c ∧
            ∀ i x, name[i]? = some x → Passes (fun flag => has take flag.bit = true) (false && i == 0) x := by
        constructor
        · intro all
          refine ⟨by simpa using all 0 c rfl, fun i x at_ => ?_⟩
          simpa using all (i + 1) x (by simpa using at_)
        · rintro ⟨here, more⟩ i x at_
          cases i with
          | zero =>
              obtain rfl : c = x := by simpa using at_
              simpa using here
          | succ i => simpa using more i x (by simpa using at_)
      rw [rest, ← ih false, ncheckLoop]
      unfold Passes
      cases needs : nameNeeds first c with
      | none => simp
      | some need =>
          obtain ⟨flag, err⟩ := need
          by_cases there : has take flag.bit = true
          · simp [there]
          · simp [there]

/-- A name passes if it has a letter for every character, and an empty one if it has the
    letter for that. -/
def Within (str : List Byte) (upper : Bool) (name : List Byte) : Prop :=
  (name = [] → Allows str upper .empty) ∧
    ∀ i c, name[i]? = some c → Passes (Allows str upper) (i == 0) c

theorem ncheck_within {take : Nat} {str : List Byte} {upper : Bool}
    (flags : ∀ flag : NameFlag, has take flag.bit = true ↔ Allows str upper flag) (name : List Byte) :
    ncheck (.bytes name) take = .ok () ↔ Within str upper name := by
  have same : (fun flag : NameFlag => has take flag.bit = true) = Allows str upper :=
    funext fun flag => propext (flags flag)
  unfold ncheck Within
  cases name with
  | nil =>
      rw [if_pos (by rfl : (Data.bytes []).len = 0)]
      by_cases empty : has take NameFlag.empty.bit = true
      · simp [empty, ← flags]
      · simp [empty, ← flags]
  | cons c name =>
      rw [if_neg (by simp [Data.len] : ¬ (Data.bytes (c :: name)).len = 0)]
      simp only
      rw [ncheckLoop_iff, same]
      simp

/-- With the limits of a description the names that pass are those with a letter for each of
    their characters. -/
theorem limits_described {str : List Byte} (some_ : str ≠ []) {sect opt len : Nat}
    (ok : accept (some str) = .ok (sect, opt, len)) (name : List Byte) :
    (ncheck (.bytes name) sect = .ok () ↔ Within str true name) ∧
      (ncheck (.bytes name) opt = .ok () ↔ Within str false name) := by
  have loop : acceptLoop 0 0 0 str = .ok (sect, opt, len) := by
    cases str with
    | nil => exact absurd rfl some_
    | cons c str => exact ok
  have none (flag : NameFlag) : has 0 flag.bit = false := by
    cases flag <;> rfl
  refine ⟨ncheck_within (fun flag => ?_) name, ncheck_within (fun flag => ?_) name⟩
  · rw [(acceptLoop_allows loop flag).1, none]
    simp
  · rw [(acceptLoop_allows loop flag).2, none]
    simp

/-- The default limits `ns`. -/
theorem limits_default :
    ncheck (.bytes [97, 49, 45]) 7 = .ok () ↔ Within [110, 115] false [97, 49, 45] :=
  (@limits_described [110, 115] (by decide) 0 7 2 rfl [97, 49, 45]).2

/-- A character in a description. -/
def shown (c : Byte) : Byte := if c = 0 then 32 else c

/-- A format of this type, with its comment and escape characters. -/
def describe (fmt : Format) (type : Byte) (com esc : List Byte) : List Byte :=
  shown fmt.sstart :: type :: shown fmt.send :: shown fmt.ostart :: shown fmt.assign ::
    shown fmt.oend :: (com ++ 32 :: esc)

/-- Characters that a description can have in a field of this size. -/
structure Field (n : Nat) (set field : List Byte) : Prop where
  short : set.length ≤ n
  visible : ∀ c ∈ set, isSpace c = false
  eq : field = set ++ List.replicate (n - set.length) 0

theorem described_shown {c : Byte} (visible : isSpace c = false) : described (shown c) = c := by
  unfold described shown
  by_cases zero : c = 0
  · rw [if_pos zero, zero]
    rfl
  · rw [if_neg zero, visible]
    rfl

theorem takeWhile_visible {set : List Byte} (visible : ∀ c ∈ set, isSpace c = false) (rest : List Byte) :
    (set ++ 32 :: rest).takeWhile (! isSpace ·) = set := by
  rw [List.takeWhile_append_of_pos fun c mem => by rw [visible c mem]; rfl]
  simp [isSpace]

/-- What is described is what is understood. -/
theorem format_described (fmt : Format) (type : Byte) {com esc : List Byte}
    (chars : ∀ c ∈ [fmt.sstart, fmt.send, fmt.ostart, fmt.assign, fmt.oend], isSpace c = false)
    (comments : Field 4 com fmt.com) (escapes : Field 3 esc fmt.esc) (some_ : esc ≠ []) :
    parseFormat (some (describe fmt type com esc)) = (fmt, type) := by
  have set : formatSets { Format.init with
      sstart := fmt.sstart, send := fmt.send, ostart := fmt.ostart, assign := fmt.assign
      oend := fmt.oend } (com ++ 32 :: esc) = fmt := by
    have first : describedSet 4 (com ++ 32 :: esc) = fmt.com := by
      unfold describedSet
      rw [takeWhile_visible comments.visible, List.take_of_length_le comments.short, comments.eq]
    have behind : ((com ++ 32 :: esc).drop
        (((com ++ 32 :: esc).takeWhile (! isSpace ·)).take 4).length).dropWhile isSpace = esc := by
      rw [takeWhile_visible comments.visible, List.take_of_length_le comments.short, List.drop_left,
        List.dropWhile_cons, if_pos (by rfl : isSpace 32 = true)]
      cases esc with
      | nil => exact absurd rfl some_
      | cons c esc => simp [escapes.visible c (by simp)]
    have last : describedSet 3 esc = fmt.esc := by
      unfold describedSet
      rw [List.takeWhile_eq_self_iff.mpr fun c mem => by rw [escapes.visible c mem]; rfl,
        List.take_of_length_le escapes.short, escapes.eq]
    have split : com ++ 32 :: esc ≠ [] := List.append_ne_nil_of_right_ne_nil _ (by simp)
    unfold formatSets
    split
    · next eq => exact absurd eq split
    · simp only [first, behind]
      cases esc with
      | nil => exact absurd rfl some_
      | cons c esc => simp only [last]
  unfold describe parseFormat
  simp only [List.drop_succ_cons, List.drop_zero, described_shown (chars fmt.sstart (by simp)),
    described_shown (chars fmt.send (by simp)), described_shown (chars fmt.ostart (by simp)),
    described_shown (chars fmt.assign (by simp)), described_shown (chars fmt.oend (by simp))]
  exact congrArg (·, type) set

/-- The default format comes from its description. -/
theorem format_default : parseFormat (some (describe Format.init 42 [35] [34, 39])) = (Format.init, 42) :=
  format_described Format.init 42 (by simp [Format.init, isSpace]) ⟨by decide, by simp [isSpace], rfl⟩
    ⟨by decide, by simp [isSpace], rfl⟩ (by decide)

end Mpt.Parse
