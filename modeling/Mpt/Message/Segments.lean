import Mpt.Message.Fragments

/-! # Segments of a character array

The arguments of a message are put into an array one behind the other, each with a terminator,
and `mpt_slice_next` goes over the array from terminator to terminator.
-/

namespace Mpt.Message

/-- The traits of a content type: the size of an element, and if they are those of `char`. -/
structure Traits where
  size : Nat
  char : Bool
  deriving DecidableEq

/-- `mpt_type_traits('c')` -/
def charTraits : Traits := ⟨1, true⟩

/-- The buffer of an array, with the type of its content. -/
structure Content where
  traits : Option Traits
  bytes : List Byte
  deriving DecidableEq

/-- `mpt_array_clone` from an array with a new buffer: that of other content is kept. -/
def arrayClone (arr : Option Content) (set : Content) : Option Content :=
  match arr with
  | none => some set
  | some buf => if set.traits ≠ buf.traits then some buf else some set

/-- A count in a variable of type `int`. -/
def toInt (n : Nat) : Int := ((n + 2 ^ 31) % 2 ^ 32 : Nat) - 2 ^ 31

/-- `mpt_array_message` with the array that it sets. -/
def setArguments (m : Mem Byte) (msg : Message) (sep : Int) (granted : Bool) (fuel : Nat)
    (arr : Option Content) : Option (Option Content × Except Error Int) :=
  if msg.length = 0 then
    some (none, .ok 0)
  else
    match arrayMessage m msg sep granted fuel with
    | none => none
    | some (.error e) => some (arr, .error e)
    | some (.ok (narg, content)) =>
        -- the result of the assignment is not looked at
        some (arrayClone arr ⟨some charTraits, content⟩, .ok (toInt narg))

/-- `struct slice` -/
structure Slice where
  buf : Option Content
  off : Nat
  len : Nat

/-- What `mpt_slice_next` comes to. -/
inductive Segment where
  | done
  | string
  | vector (char : Bool)
  deriving DecidableEq

/-- `mpt_slice_next` -/
def sliceNext (s : Slice) : Slice × Except Error Segment :=
  match s.buf with
  | none => (s, .error .missingData)
  | some buf =>
      if buf.bytes.length < s.off then
        (s, .error .missingData)
      else
        match buf.traits with
        | none => (s, .error .badArgument)
        | some traits =>
            let len : Int := buf.bytes.length - s.off - s.len
            if traits.size = 0 then
              (s, .error .badArgument)
            -- consume existing segment
            else if s.len ≠ 0 ∧ len = 0 then
              ({ s with off := s.off + s.len, len := 0 }, .ok .done)
            else if len < traits.size then
              (s, .error .missingData)
            else if traits.size ≠ 1 then
              -- alignment of data is required
              if s.off % traits.size ≠ 0 then
                (s, .error .badValue)
              else
                ({ s with off := s.off + s.len, len := traits.size }, .ok (.vector false))
            -- next byte of remaining data
            else if traits ≠ charTraits then
              ({ s with off := s.off + s.len, len := 1 }, .ok (.vector false))
            else
              match (buf.bytes.drop (s.off + s.len)).findIdx? (· == 0) with
              | some end_ => ({ s with off := s.off + s.len, len := end_ + 1 }, .ok .string)
              | none => ({ s with off := s.off + s.len, len := len.toNat }, .ok (.vector true))

/-- The bytes of a slice. -/
def Slice.content (s : Slice) : List Byte :=
  match s.buf with
  | none => []
  | some buf => (buf.bytes.drop s.off).take s.len

/-- The segments that a slice comes to, in `fuel` calls at most. -/
def Slice.segments : (fuel : Nat) → Slice → List (Segment × List Byte)
  | 0, _ => []
  | fuel + 1, s =>
      match sliceNext s with
      | (_, .error _) => []
      | (_, .ok .done) => []
      | (s, .ok kind) => (kind, s.content) :: segments fuel s

/-- The strings, each with a terminator. -/
def joined (strings : List (List Byte)) : List Byte := strings.flatMap fun s => s ++ [0]

/-- The array is set to the strings. -/
def Returned (m : Mem Byte) (msg : Message) (granted : Bool) (arr : Option Content)
    (strings : List (List Byte)) : Prop :=
  ∃ arr', setArguments m msg 0 granted (msg.length + 1) arr = some (arr', .ok strings.length) ∧
    ∀ fuel, strings.length < fuel →
      (⟨arr', 0, 0⟩ : Slice).segments fuel = strings.map fun s => (.string, s ++ [0])

/-- The array takes characters. -/
def TakesChars : Option Content → Prop
  | none => True
  | some buf => buf.traits = some charTraits

theorem toInt_eq (n : Nat) : toInt n = n ↔ n < 2 ^ 31 := by
  unfold toInt
  omega

theorem joined_cons (s : List Byte) (strings : List (List Byte)) :
    joined (s :: strings) = s ++ 0 :: joined strings := by
  simp [joined]

theorem findIdx_zero {s : List Byte} (free : 0 ∉ s) (l : List Byte) :
    (s ++ 0 :: l).findIdx? (· == 0) = some s.length := by
  rw [List.findIdx?_append, List.findIdx?_eq_none_iff.mpr]
  · simp [List.findIdx?_cons]
  · intro x mem
    rw [beq_eq_false_iff_ne]
    rintro rfl
    exact free mem

/-- The arguments of joined strings are the strings. -/
theorem argSpec_joined {strings : List (List Byte)} (free : ∀ s ∈ strings, 0 ∉ s)
    (content : List Byte) (narg : Nat) {fuel : Nat} (enough : strings.length < fuel) :
    argSpec 0 (joined strings) content narg fuel =
      some (narg + strings.length, content ++ joined strings) := by
  induction strings generalizing content narg fuel with
  | nil =>
      cases fuel with
      | zero => cases enough
      | succ fuel => simp [argSpec, joined]
  | cons s strings ih =>
      cases fuel with
      | zero => cases enough
      | succ fuel =>
          have size : argLen 0 (s ++ 0 :: joined strings) = s.length := by
            rw [argLen, if_pos rfl, nextIndex, findIdx_zero (free s List.mem_cons_self)]
            rfl
          have rest : (s ++ 0 :: joined strings).drop (s.length + 1) = joined strings := by
            rw [← List.drop_drop, List.drop_left]
            rfl
          rw [joined_cons, argSpec, if_neg (by simp)]
          simp only [if_true, ne_eq, not_true, and_false, if_false, size, List.take_left, rest]
          rw [ih (fun s mem => free s (List.mem_cons_of_mem _ mem)) _ _ (Nat.lt_of_succ_lt_succ enough)]
          simp only [List.length_cons, List.append_assoc, List.cons_append, List.nil_append,
            Option.some.injEq, Prod.mk.injEq, and_true]
          omega

theorem length_le_joined (strings : List (List Byte)) : strings.length ≤ (joined strings).length := by
  induction strings with
  | nil => exact Nat.le_refl 0
  | cons s strings ih =>
      rw [joined_cons, List.length_append, List.length_cons, List.length_cons]
      omega

/-- The segments of an array from a position on. -/
theorem segments_joined {strings : List (List Byte)} (free : ∀ s ∈ strings, 0 ∉ s)
    {pre : List Byte} {off len : Nat} (start : off + len = pre.length) {fuel : Nat}
    (enough : strings.length < fuel) :
    (⟨some ⟨some charTraits, pre ++ joined strings⟩, off, len⟩ : Slice).segments fuel =
      strings.map fun s => (.string, s ++ [0]) := by
  cases fuel with
  | zero => cases enough
  | succ fuel =>
      have inside : ¬ (pre ++ joined strings).length < off := by
        rw [List.length_append]
        omega
      have left : ((pre ++ joined strings).length : Int) - off - len = (joined strings).length := by
        rw [List.length_append]
        omega
      induction strings generalizing pre off len fuel with
      | nil =>
          unfold Slice.segments sliceNext
          simp only [inside, if_false, left, charTraits, Nat.one_ne_zero]
          by_cases consumed : len = 0
          · simp [consumed, joined]
          · simp [consumed, joined]
      | cons s strings ih =>
          have some_ : (joined (s :: strings)).length = s.length + (joined strings).length + 1 := by
            rw [joined_cons, List.length_append, List.length_cons]
            omega
          have ended : ((pre ++ joined (s :: strings)).drop (off + len)).findIdx? (· == 0) =
              some s.length := by
            rw [start, List.drop_left, joined_cons]
            exact findIdx_zero (free s List.mem_cons_self) _
          have next : sliceNext ⟨some ⟨some charTraits, pre ++ joined (s :: strings)⟩, off, len⟩ =
              (⟨some ⟨some charTraits, pre ++ joined (s :: strings)⟩, off + len, s.length + 1⟩,
                .ok .string) := by
            unfold sliceNext
            have more : ¬ (len ≠ 0 ∧ ((joined (s :: strings)).length : Int) = 0) := by omega
            have room : ¬ (((joined (s :: strings)).length : Int) < ((1 : Nat) : Int)) := by omega
            simp only [inside, if_false, left, charTraits, Nat.one_ne_zero, more, room, ne_eq,
              not_true] at ended ⊢
            rw [ended]
          have content : (⟨some ⟨some charTraits, pre ++ joined (s :: strings)⟩, off + len,
              s.length + 1⟩ : Slice).content = s ++ [0] := by
            unfold Slice.content
            simp only
            rw [start, List.drop_left, joined_cons, ← List.singleton_append, ← List.append_assoc,
              List.take_left' (by simp)]
          unfold Slice.segments
          rw [next]
          simp only [content, List.map_cons, List.cons.injEq, true_and]
          have parts : pre ++ joined (s :: strings) = (pre ++ (s ++ [0])) ++ joined strings := by
            rw [joined_cons]
            simp
          cases fuel with
          | zero => exact absurd enough (by simp)
          | succ fuel =>
              rw [parts] at inside left ⊢
              apply ih (fun s mem => free s (List.mem_cons_of_mem _ mem)) _ _
                (Nat.lt_of_succ_lt_succ enough)
              · rw [List.length_append, List.length_append] at inside ⊢
                simp only [List.length_append, List.length_singleton]
                omega
              · simp only [List.length_append, List.length_singleton]
                omega
              · simp only [List.length_append, List.length_singleton]
                omega

/-- A string is a segment of characters. -/
theorem sliceNext_string {buf : Content} {off len : Nat} {s : Slice}
    (next : sliceNext ⟨some buf, off, len⟩ = (s, .ok .string)) : buf.traits = some charTraits := by
  unfold sliceNext at next
  simp only at next
  split at next
  · cases next
  · split at next
    · cases next
    · next traits typed =>
        rw [typed]
        by_contra other
        have differ : traits ≠ charTraits := fun same => other (congrArg some same)
        simp only [ne_eq, differ, not_false_eq_true, if_true] at next
        repeat' split at next
        all_goals cases next

/-- Terminators are found in any parts. -/
theorem argsClear_zero (m : Mem Byte) (msg : Message) (fuel : Nat) : ArgsClear m 0 msg fuel := by
  induction fuel generalizing msg with
  | zero => trivial
  | succ fuel ih =>
      refine ⟨fun zero => absurd rfl zero, ?_⟩
      split
      · trivial
      · intro _
        exact ih _

/-- An array that does not take characters does not come to strings. -/
theorem takesChars_of_segments {arr : Option Content} {bytes : List Byte} {string : Segment × List Byte}
    {others : List (Segment × List Byte)} (kind : string.1 = .string) {fuel : Nat}
    (segments : (⟨arrayClone arr ⟨some charTraits, bytes⟩, 0, 0⟩ : Slice).segments fuel =
      string :: others) : TakesChars arr := by
  cases arr with
  | none => trivial
  | some buf =>
      by_contra other
      have kept : arrayClone (some buf) ⟨some charTraits, bytes⟩ = some buf :=
        if_pos fun same => other same.symm
      rw [kept] at segments
      cases fuel with
      | zero => cases segments
      | succ fuel =>
          unfold Slice.segments at segments
          split at segments
          · cases segments
          · cases segments
          · next s' kind' _ next =>
              rw [List.cons.injEq] at segments
              have string_ : kind' = .string := by rw [← kind, ← segments.1]
              rw [string_] at next
              exact other (sliceNext_string next)

/-- The strings go into the array and come back from it exactly when there is memory, the
    array does not hold other content, and their number is one of an `int`. -/
theorem setArguments_roundTrip (m : Mem Byte) (msg : Message) (granted : Bool)
    (arr : Option Content) (strings : List (List Byte)) (free : ∀ s ∈ strings, 0 ∉ s)
    (parts : msg.bytes.map m = joined strings) :
    Returned m msg granted arr strings ↔
      (strings = [] ∨ granted = true ∧ TakesChars arr) ∧ strings.length < 2 ^ 31 := by
  have size : msg.length = (joined strings).length := by
    rw [length_eq, ← parts, List.length_map]
  unfold Returned setArguments
  rw [arrayMessage_eq (argsClear_zero m msg _), parts, size]
  by_cases empty : strings = []
  · subst empty
    have ends (fuel : Nat) : (⟨none, 0, 0⟩ : Slice).segments fuel = [] := by
      cases fuel <;> rfl
    simp [joined, ends]
  · have some_ : joined strings ≠ [] := by
      intro none
      have size := length_le_joined strings
      rw [none] at size
      exact empty (List.eq_nil_of_length_eq_zero (Nat.le_zero.mp size))
    rw [if_neg fun none => some_ (List.eq_nil_of_length_eq_zero none), if_neg some_]
    simp only [empty, false_or]
    cases granted with
    | false => simp
    | true =>
        have enough : strings.length < (joined strings).length + 1 :=
          Nat.lt_succ_of_le (length_le_joined strings)
        simp only [Bool.true_eq_false, if_false, argSpec_joined free [] 0 enough, Option.map_some,
          Option.some.injEq, Prod.mk.injEq, Except.ok.injEq, Nat.zero_add, List.nil_append, toInt_eq,
          true_and]
        constructor
        · rintro ⟨arr', ⟨rfl, small⟩, segments⟩
          refine ⟨?_, small⟩
          obtain ⟨first, others, rfl⟩ := List.exists_cons_of_ne_nil empty
          exact takesChars_of_segments rfl (segments _ (Nat.lt_succ_self _))
        · rintro ⟨chars, small⟩
          refine ⟨_, ⟨rfl, small⟩, ?_⟩
          have set : arrayClone arr ⟨some charTraits, joined strings⟩ =
              some ⟨some charTraits, joined strings⟩ := by
            cases arr with
            | none => rfl
            | some buf => exact if_neg (not_not.mpr chars.symm)
          rw [set]
          intro fuel enough
          exact @segments_joined strings free [] 0 0 rfl fuel enough

/-- The bytes of `"a"` and `""`. -/
def twoStrings : Mem Byte := fun a => if a = 0 then 97 else 0

/-- Two strings in two parts, to an array without buffer. -/
theorem setArguments_roundTrip_two :
    Returned twoStrings ⟨0, 1, [⟨1, 2⟩]⟩ true none [[97], []] :=
  (setArguments_roundTrip twoStrings ⟨0, 1, [⟨1, 2⟩]⟩ true none [[97], []] (by decide) (by decide)).mpr
    ⟨.inr ⟨rfl, trivial⟩, by decide⟩

/-- The same to an array that holds bytes without a type: it is not set. -/
theorem setArguments_kept :
    setArguments twoStrings ⟨0, 1, [⟨1, 2⟩]⟩ 0 true 4 (some ⟨none, [7]⟩) =
      some (some ⟨none, [7]⟩, .ok 2) ∧
    ¬ Returned twoStrings ⟨0, 1, [⟨1, 2⟩]⟩ true (some ⟨none, [7]⟩) [[97], []] := by
  have kept : setArguments twoStrings ⟨0, 1, [⟨1, 2⟩]⟩ 0 true 4 (some ⟨none, [7]⟩) =
      some (some ⟨none, [7]⟩, .ok 2) := by decide
  refine ⟨kept, ?_⟩
  rintro ⟨arr', set, segments⟩
  have same : arr' = some ⟨none, [7]⟩ := by
    have := kept.symm.trans set
    simp only [Option.some.injEq, Prod.mk.injEq] at this
    exact this.1.symm
  rw [same] at segments
  exact absurd (segments 3 (by decide)) (by decide)

end Mpt.Message
