import Mpt.Message.Argv

/-! # Arguments and the fragments of a message

What the arguments are follows from the bytes of a message, as long as no white space
before an argument goes on into another part, and no escape is open where a part ends.
-/

namespace Mpt

/-- The bytes from the first argument on. -/
def trimmed (l : List Byte) : List Byte := l.drop ((l.findIdx? (!isSpace ·)).getD 0)

/-- The bytes before a terminator. -/
def nextIndex (tok : Byte) (l : List Byte) : Nat := (l.findIdx? (· == tok)).getD l.length

/-- The length of the first argument. -/
def argLen (sep : Int) (l : List Byte) : Nat :=
  if sep = 0 then nextIndex 0 l
  else if isGraph sep = false then
    (tokScan spaces quotes 0 32 0 l).toOption.getD (nextIndex 0 l)
  else nextIndex (.ofInt sep) l

/-- The arguments of a sequence of bytes. -/
def argSpec (sep : Int) (l content : List Byte) (narg : Nat) : (fuel : Nat) → Option (Nat × List Byte)
  | 0 => none
  | fuel + 1 =>
      if l = [] then
        some (narg, content)
      else
        let l := if sep = 0 then l else trimmed l
        let len := argLen sep l
        if len = 0 ∧ sep ≠ 0 then
          some (narg, content)
        else
          argSpec sep (l.drop (len + 1)) (content ++ (l.take len ++ [0])) (narg + 1) fuel

section Scan

/-- The bytes of several parts. -/
def flat (data : List Iovec) : List Nat := data.flatMap fun v => addresses v.base v.len

@[simp] theorem flat_nil : flat [] = [] := rfl

@[simp] theorem flat_cons (v : Iovec) (vs : List Iovec) :
    flat (v :: vs) = addresses v.base v.len ++ flat vs := rfl

theorem Message.bytes_eq (msg : Message) :
    msg.bytes = addresses msg.base msg.used ++ flat msg.cont := rfl

theorem length_flat (data : List Iovec) : (flat data).length = (data.map Iovec.len).sum := by
  induction data with
  | nil => rfl
  | cons v vs ih => simp [ih]

theorem memfcn_flat (m : Mem Byte) (accept : Byte → Bool) (data : List Iovec) :
    memfcn m accept data = ((flat data).map m).findIdx? accept := by
  induction data with
  | nil => rfl
  | cons v vs ih =>
      rw [memfcn, flat_cons, List.map_append, map_addresses, List.findIdx?_append]
      cases (m.read v.base v.len).findIdx? accept with
      | some pos => rfl
      | none =>
          rw [ih, Option.none_or, Mem.length_read]
          simp only [Nat.add_comm]

theorem memtok_flat (m : Mem Byte) (data : List Iovec) (tok esc : List Byte) :
    memtok m data tok esc = (tokScan tok esc 0 32 0 ((flat data).map m)).toOption := by
  unfold memtok flat
  rw [List.map_flatMap]
  simp only [map_addresses]

variable (tok esc : List Byte)

theorem tokScan_append (match_ prev : Byte) (pos : Nat) (l l' : List Byte) :
    tokScan tok esc match_ prev pos (l ++ l') =
      match tokScan tok esc match_ prev pos l with
      | .ok p => .ok p
      | .error (match_, prev) => tokScan tok esc match_ prev (pos + l.length) l' := by
  induction l generalizing match_ prev pos with
  | nil => rfl
  | cons c l ih =>
      simp only [List.cons_append, tokScan]
      rw [List.length_cons, Nat.add_comm l.length, ← Nat.add_assoc]
      split
      · exact ih _ _ _
      · split
        · exact ih _ _ _
        · split
          · rfl
          · exact ih _ _ _

theorem tokScan_shift (match_ prev : Byte) (pos k : Nat) (l : List Byte) :
    tokScan tok esc match_ prev (pos + k) l = (tokScan tok esc match_ prev pos l).map (· + k) := by
  induction l generalizing match_ prev pos with
  | nil => rfl
  | cons c l ih =>
      simp only [tokScan]
      rw [Nat.add_right_comm]
      split
      · exact ih _ _ _
      · split
        · exact ih _ _ _
        · split
          · rfl
          · exact ih _ _ _

/-- The last character matters to what follows only if it is a backslash. -/
theorem tokScan_prev {prev prev' : Byte} (plain : prev ≠ 92) (plain' : prev' ≠ 92) (match_ : Byte)
    (pos : Nat) (l : List Byte) : (tokScan tok esc match_ prev pos l).toOption =
      (tokScan tok esc match_ prev' pos l).toOption := by
  induction l generalizing match_ pos with
  | nil => rfl
  | cons c l ih =>
      simp only [tokScan]
      split
      · simp only [plain, plain', ne_eq, not_false_eq_true, and_true]
      · split
        · exact ih _ _
        · rfl

theorem tokScan_le (match_ prev : Byte) (pos : Nat) (l : List Byte) {p : Nat}
    (found : tokScan tok esc match_ prev pos l = .ok p) : p ≤ pos + l.length := by
  induction l generalizing match_ prev pos with
  | nil => cases found
  | cons c l ih =>
      simp only [tokScan] at found
      rw [List.length_cons]
      split at found
      · have := ih _ _ _ found
        omega
      · split at found
        · have := ih _ _ _ found
          omega
        · split at found
          · cases found
            omega
          · have := ih _ _ _ found
            omega

end Scan

theorem nextIndex_le (tok : Byte) (l : List Byte) : nextIndex tok l ≤ l.length := by
  unfold nextIndex
  cases found : l.findIdx? (· == tok) with
  | none => exact Nat.le_refl _
  | some i =>
      have := (List.findIdx?_eq_some_iff_getElem.mp found).1
      exact Nat.le_of_lt this

theorem argLen_le (sep : Int) (l : List Byte) : argLen sep l ≤ l.length := by
  unfold argLen
  split
  · exact nextIndex_le _ _
  · split
    · cases found : tokScan spaces quotes 0 32 0 l with
      | error s => exact nextIndex_le _ _
      | ok p =>
          have bound := tokScan_le _ _ _ _ _ _ found
          rw [Nat.zero_add] at bound
          exact bound
    · exact nextIndex_le _ _

namespace Message

variable {m m' : Mem Byte} {msg msg' : Message}

/-- White space before an argument does not go on into another part. -/
def TrimClear (m : Mem Byte) (msg : Message) : Prop :=
  (memfcn m (!isSpace ·) [⟨msg.base, msg.used⟩]).isSome ∨ memfcn m (!isSpace ·) msg.cont = none

/-- Where the current part ends no escape is open, and it does not end with a backslash. -/
def QuoteClear (m : Mem Byte) (msg : Message) : Prop :=
  flat msg.cont = [] ∨
    match tokScan spaces quotes 0 32 0 (m.read msg.base msg.used) with
    | .ok _ => True
    | .error (match_, prev) => match_ = 0 ∧ prev ≠ 92

/-- The parts of a message do not disturb the search of its next argument. -/
def ArgClear (m : Mem Byte) (msg : Message) (sep : Int) : Prop :=
  sep ≠ 0 → TrimClear m (settle msg.base msg.used msg.cont) ∧
    (isGraph sep = false → QuoteClear m ((settle msg.base msg.used msg.cont).trim m))

/-- That is so for each argument. -/
def ArgsClear (m : Mem Byte) (sep : Int) (msg : Message) : (fuel : Nat) → Prop
  | 0 => True
  | fuel + 1 =>
      ArgClear m msg sep ∧
        match msg.argv m sep with
        | (_, none) => True
        | (msg, some len) =>
            ¬ (len = 0 ∧ sep ≠ 0) → ArgsClear m sep ((msg.read len).1.read 1).1 fuel

theorem nextChar_eq (m : Mem Byte) (msg : Message) (tok : Byte) :
    nextChar m ⟨msg.base, msg.used⟩ msg.cont tok = nextIndex tok (msg.bytes.map m) := by
  unfold nextChar nextIndex memchr
  rw [memfcn_flat, memfcn_flat, bytes_eq, List.map_append, List.findIdx?_append, List.length_append]
  simp only [flat_cons, flat_nil, List.append_nil, List.length_map, length_addresses]
  cases ((addresses msg.base msg.used).map m).findIdx? (· == tok) with
  | some part => rfl
  | none =>
      simp only [Option.none_or]
      cases ((flat msg.cont).map m).findIdx? (· == tok) with
      | some part => simp [Nat.add_comm]
      | none => simp [length_flat]

theorem trim_eq (clear : TrimClear m msg) : (msg.trim m).bytes.map m = trimmed (msg.bytes.map m) := by
  unfold TrimClear at clear
  unfold trim trimmed
  rw [memfcn_flat, memfcn_flat] at clear ⊢
  have whole : msg.bytes.map m =
      (addresses msg.base msg.used).map m ++ (flat msg.cont).map m := List.map_append
  rw [whole, List.findIdx?_append]
  simp only [flat_cons, flat_nil, List.append_nil] at clear ⊢
  cases found : ((addresses msg.base msg.used).map m).findIdx? (!isSpace ·) with
  | some part =>
      have inside := (List.findIdx?_eq_some_iff_getElem.mp found).1
      rw [List.length_map, length_addresses] at inside
      simp only [Option.some_or, Option.getD_some]
      rw [List.drop_append_of_le_length (by simp; omega), ← List.map_drop,
        drop_addresses _ _ _ (by omega), ← List.map_append]
      rfl
  | none =>
      rw [found] at clear
      have none := clear.resolve_left (by simp)
      simp only [none, Option.map_none, Option.none_or, Option.getD_none, List.drop_zero]
      rw [← List.map_append]
      rfl

/-- The next argument is that of the bytes of the message. -/
theorem argv_eq {sep : Int} (clear : ArgClear m msg sep) :
    (msg.bytes.map m = [] ∧ (msg.argv m sep).2 = none) ∨
      msg.bytes.map m ≠ [] ∧ ∃ msg', msg'.bytes.map m =
          (if sep = 0 then msg.bytes.map m else trimmed (msg.bytes.map m)) ∧
        msg.argv m sep = (msg', some (argLen sep (msg'.bytes.map m))) := by
  have bytes := bytes_settle msg.base msg.used msg.cont
  have last := settle_used msg.base msg.used msg.cont
  unfold ArgClear at clear
  unfold argv
  rw [show (⟨msg.base, msg.used, msg.cont⟩ : Message) = msg from rfl] at bytes
  rw [← bytes]
  generalize settle msg.base msg.used msg.cont = msg at bytes last clear
  by_cases empty : msg.used = 0
  · left
    simp [empty, last empty]
  · right
    refine ⟨?_, ?_⟩
    · intro none
      have size := congrArg List.length none
      rw [bytes_eq, List.length_map, List.length_append, length_addresses] at size
      simp only [List.length_nil] at size
      omega
    · simp only [empty, if_false]
      by_cases zero : sep = 0
      · refine ⟨msg, by rw [if_pos zero], ?_⟩
        rw [if_pos zero, nextChar_eq]
        simp [argLen, zero]
      · obtain ⟨trims, quoted⟩ := clear zero
        refine ⟨msg.trim m, by rw [if_neg zero, trim_eq trims], ?_⟩
        rw [if_neg zero]
        generalize msg.trim m = msg at quoted
        unfold argLen
        rw [if_neg zero]
        by_cases graph : isGraph sep = false
        · rw [if_pos graph, if_pos graph, nextChar_eq, memtok_flat, memtok_flat]
          have quoted := quoted graph
          unfold QuoteClear at quoted
          simp only [flat_cons, flat_nil, List.append_nil]
          rw [bytes_eq, List.map_append, tokScan_append, map_addresses]
          cases scan : tokScan spaces quotes 0 32 0 (m.read msg.base msg.used) with
          | ok p => rfl
          | error s =>
              obtain ⟨match_, prev⟩ := s
              rw [scan] at quoted
              simp only [Except.toOption]
              rcases quoted with none | ⟨rfl, plain⟩
              · rw [none]
                rfl
              · have rest : (tokScan spaces quotes 0 prev
                    (0 + (m.read msg.base msg.used).length) ((flat msg.cont).map m)).toOption =
                    (tokScan spaces quotes 0 32 0 ((flat msg.cont).map m)).toOption.map
                      (· + msg.used) := by
                  rw [tokScan_shift, Mem.length_read,
                    ← tokScan_prev spaces quotes plain (by decide : (32 : Byte) ≠ 92)]
                  cases tokScan spaces quotes 0 prev 0 ((flat msg.cont).map m) <;> rfl
                unfold Except.toOption at rest
                rw [rest]
                cases tokScan spaces quotes 0 32 0 ((flat msg.cont).map m) with
                | ok p => simp [Nat.add_comm]
                | error s => rfl
        · rw [if_neg graph, if_neg graph, nextChar_eq]

/-- Reading an argument and the separator behind it. -/
theorem read_arg (m : Mem Byte) (msg : Message) (len : Nat) (le : len ≤ (msg.bytes.map m).length) :
    (msg.read len).2.map m = (msg.bytes.map m).take len ∧ (msg.read len).2.length = len ∧
      ((msg.read len).1.read 1).1.bytes.map m = (msg.bytes.map m).drop (len + 1) := by
  obtain ⟨taken, left, _⟩ := read_spec msg len
  obtain ⟨_, left', _⟩ := read_spec (msg.read len).1 1
  rw [List.length_map] at le
  refine ⟨by rw [taken, List.map_take], by rw [taken, List.length_take]; omega, ?_⟩
  rw [left', left, List.drop_drop, List.map_drop]

theorem argLoop_eq {sep : Int} {fuel : Nat} (clear : ArgsClear m sep msg fuel) (content : List Byte)
    (narg : Nat) : argLoop m sep msg content narg fuel =
      argSpec sep (msg.bytes.map m) content narg fuel := by
  induction fuel generalizing msg content narg with
  | zero => rfl
  | succ fuel ih =>
      obtain ⟨first, rest⟩ := clear
      rw [argLoop, argSpec]
      rcases argv_eq first with ⟨empty, done⟩ | ⟨some_, msg', bytes, next⟩
      · rw [if_pos empty]
        generalize msg.argv m sep = r at done
        obtain ⟨msg', ret⟩ := r
        subst done
        rfl
      · rw [if_neg some_]
        rw [next] at rest ⊢
        simp only [← bytes] at rest ⊢
        by_cases stop : argLen sep (msg'.bytes.map m) = 0 ∧ sep ≠ 0
        · rw [if_pos stop, if_pos stop]
        · rw [if_neg stop, if_neg stop, ih (rest stop)]
          obtain ⟨taken, size, left⟩ := read_arg m msg' _ (argLen_le sep (msg'.bytes.map m))
          rw [taken, left, size, Nat.sub_self, List.replicate_zero, List.append_nil]

/-- Every argument takes bytes of the message. -/
theorem argSpec_some (sep : Int) (l content : List Byte) (narg : Nat) {fuel : Nat}
    (enough : l.length < fuel) : (argSpec sep l content narg fuel).isSome := by
  induction fuel generalizing l content narg with
  | zero => exact absurd enough (by simp)
  | succ fuel ih =>
      rw [argSpec]
      split
      · rfl
      · next some_ =>
          have size : (if sep = 0 then l else trimmed l).length ≤ l.length := by
            split
            · exact Nat.le_refl _
            · unfold trimmed
              rw [List.length_drop]
              omega
          have pos := List.length_pos_iff.mpr some_
          generalize (if sep = 0 then l else trimmed l) = l' at size
          simp only
          split
          · rfl
          · apply ih
            rw [List.length_drop]
            omega

theorem length_eq (msg : Message) : msg.length = msg.bytes.length := by
  rw [bytes_eq, List.length_append, length_addresses, length_flat]
  rfl

theorem arrayMessage_eq {sep : Int} {fuel : Nat} (clear : ArgsClear m sep msg fuel)
    (granted : Bool) : arrayMessage m msg sep granted fuel =
      if msg.bytes.map m = [] then some (.ok (0, []))
      else if granted = false then some (.error .badOperation)
      else (argSpec sep (msg.bytes.map m) [] 0 fuel).map .ok := by
  unfold arrayMessage
  rw [length_eq, argLoop_eq clear]
  by_cases empty : msg.bytes = []
  · simp [empty]
  · rw [if_neg fun none => empty (List.eq_nil_of_length_eq_zero none),
      if_neg fun none => empty (List.map_eq_nil_iff.mp none)]

/-- The parts that a message is in do not show in its arguments, nor in the command that an
    event with that message gives. -/
theorem arguments_of_bytes {β : Type u} (same : msg.bytes.map m = msg'.bytes.map m') (sep : Int)
    (clear : ∀ fuel, ArgsClear m sep msg fuel) (clear' : ∀ fuel, ArgsClear m' sep msg' fuel)
    (granted : Bool) (fuel : Nat) :
    arrayMessage m msg sep granted fuel = arrayMessage m' msg' sep granted fuel ∧
      (msg.bytes.length < fuel → (arrayMessage m msg sep granted fuel).isSome) ∧
      ∀ (e e' : Message) (arguments : List Byte → Option β), e.bytes.map m = e'.bytes.map m' →
        (e.read 2).1 = msg → (e'.read 2).1 = msg' → headerArg m (e.read 2).2 = sep →
          eventCommand m arguments e granted fuel = eventCommand m' arguments e' granted fuel := by
  have equal : arrayMessage m msg sep granted fuel = arrayMessage m' msg' sep granted fuel := by
    rw [arrayMessage_eq (clear fuel), arrayMessage_eq (clear' fuel), same]
  refine ⟨equal, fun enough => ?_, ?_⟩
  · rw [arrayMessage_eq (clear fuel)]
    split
    · rfl
    · split
      · rfl
      · rw [Option.isSome_map]
        exact argSpec_some sep _ _ _ (by rw [List.length_map]; exact enough)
  · rintro e e' arguments bytes rfl rfl rfl
    have header : (e.read 2).2.map m = (e'.read 2).2.map m' := by
      rw [(read_spec e 2).1, (read_spec e' 2).1, List.map_take, List.map_take, bytes]
    unfold eventCommand
    simp only
    generalize (e.read 2).2 = part at header equal
    generalize (e'.read 2).2 = part' at header
    cases part with
    | nil =>
        cases part' with
        | nil => rfl
        | cons cmd' part' => cases header
    | cons cmd part =>
        cases part' with
        | nil => cases header
        | cons cmd' part' =>
            rw [List.map_cons, List.map_cons, List.cons.injEq] at header
            obtain ⟨cmd_eq, header⟩ := header
            have arg_eq : headerArg m' (cmd' :: part') = headerArg m (cmd :: part) := by
              cases part with
              | nil =>
                  cases part' with
                  | nil => rfl
                  | cons arg' part' => cases header
              | cons arg part =>
                  cases part' with
                  | nil => cases header
                  | cons arg' part' =>
                      simp only [List.map_cons, List.cons.injEq] at header
                      simp only [headerArg, header.1]
            simp only [cmd_eq, arg_eq, equal]

/-- `"a b"` -/
def sampleText (i : Nat) : Byte := [97, 32, 98].getD i 0

theorem sample_clear : ∀ fuel, ArgsClear sampleText 32 ⟨0, 3, []⟩ fuel
  | 0 => trivial
  | 1 => ⟨fun _ => ⟨.inl rfl, fun _ => .inl rfl⟩, fun _ => trivial⟩
  | fuel + 2 => by
      refine ⟨fun _ => ⟨.inl rfl, fun _ => .inl rfl⟩, fun _ => ?_⟩
      refine ⟨fun _ => ⟨.inl rfl, fun _ => .inl rfl⟩, fun _ => ?_⟩
      cases fuel with
      | zero => trivial
      | succ fuel => exact ⟨fun _ => ⟨.inr rfl, fun _ => .inl rfl⟩, trivial⟩

theorem sample_clear_parts : ∀ fuel, ArgsClear sampleText 32 ⟨0, 1, [⟨1, 2⟩]⟩ fuel
  | 0 => trivial
  | 1 => ⟨fun _ => ⟨.inl rfl, fun _ => .inr ⟨rfl, by decide⟩⟩, fun _ => trivial⟩
  | fuel + 2 => by
      refine ⟨fun _ => ⟨.inl rfl, fun _ => .inr ⟨rfl, by decide⟩⟩, fun _ => ?_⟩
      refine ⟨fun _ => ⟨.inl rfl, fun _ => .inl rfl⟩, fun _ => ?_⟩
      cases fuel with
      | zero => trivial
      | succ fuel => exact ⟨fun _ => ⟨.inr rfl, fun _ => .inl rfl⟩, trivial⟩

theorem sample_arguments : arrayMessage sampleText ⟨0, 3, []⟩ 32 true 9 =
    arrayMessage sampleText ⟨0, 1, [⟨1, 2⟩]⟩ 32 true 9 :=
  (arguments_of_bytes (β := Unit) (by decide) 32 sample_clear sample_clear_parts true 9).1

/-- White space that goes on into another part, as in the parts `" "` and `"b"`: the part
    behind it is read twice. -/
theorem space_across_parts : ¬ ∀ (m m' : Mem Byte) (msg msg' : Message) (sep : Int)
    (granted : Bool) (fuel : Nat), msg.bytes.map m = msg'.bytes.map m' →
      arrayMessage m msg sep granted fuel = arrayMessage m' msg' sep granted fuel := by
  intro all
  have same := all (sampleText <| · + 1) (sampleText <| · + 1) ⟨0, 2, []⟩ ⟨0, 1, [⟨1, 1⟩]⟩ 32 true 9
    (by decide)
  exact absurd same (by decide)

end Message

end Mpt
