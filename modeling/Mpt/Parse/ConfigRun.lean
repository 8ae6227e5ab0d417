import Mpt.Parse.Nesting

/-! # The elements of a text are nested

Whatever text is read, what is handed on is nested as its sections are: the path of a
section or an option has the names of all open sections in front of its own.  The run
comes to an end, as what is left of the text gets shorter.
-/

namespace Mpt.Parse

open Config (Path)
open Config.Path (Holds)

/-- What is handed on while every call succeeds, with the state and the result at the end. -/
def calls (next : Parser → Parser × Result) : Nat → Parser → Option (List Call × Parser × Int)
  | 0, _ => none
  | fuel + 1, s =>
      match next s with
      | (s, .error e) => some ([], s, e.code)
      | (s, .ok none) => some ([], s, 0)
      | (s, .ok (some e)) =>
          match s.left e with
          | (s', .error _) => some ([s.call e], s', Error.missingData.code)
          | (s', .ok _) => (calls next fuel s'.cycled).map fun r => (s.call e :: r.1, r.2)

/-- The calls are made in their order until one fails. -/
def handOver {σ : Type} (save : σ → Call → Option σ) : σ → List Call → Int → σ × Int
  | x, [], ret => (x, ret)
  | x, c :: cs, ret =>
      match save x c with
      | none => (x, -128)
      | some x => handOver save x cs ret

/-- The handler has no influence on what is read. -/
theorem config_handOver {σ : Type} {next : Parser → Parser × Result} (save : σ → Call → Option σ)
    {fuel : Nat} (x : σ) {s s' : Parser} {cs : List Call} {ret : Int}
    (run : calls next fuel s = some (cs, s', ret)) :
    ∃ s'', config next save fuel x s =
      some ((handOver save x cs ret).1, s'', (handOver save x cs ret).2) := by
  induction fuel generalizing x s cs with
  | zero => cases run
  | succ fuel ih =>
      rw [calls] at run
      rw [config]
      generalize next s = found at run ⊢
      obtain ⟨s₁, err | none | e⟩ := found
      · cases run
        exact ⟨_, rfl⟩
      · cases run
        exact ⟨_, rfl⟩
      · dsimp only at run ⊢
        generalize s₁.left e = left at run ⊢
        obtain ⟨s₂, err | n⟩ := left
        · cases run
          rw [handOver]
          cases save x (s₁.call e) with
          | none => exact ⟨_, rfl⟩
          | some x => exact ⟨_, rfl⟩
        · obtain ⟨⟨cs', s₃, ret'⟩, more, same⟩ := Option.map_eq_some_iff.mp run
          cases same
          rw [handOver]
          cases save x (s₁.call e) with
          | none => exact ⟨_, rfl⟩
          | some x => exact ih x more

/-- The calls are nested inside of these sections, behind an operation with these flags. -/
def Traced : (els : List (List Byte)) → (prev : Nat) → List Call → Int → Prop
  | _, _, [], _ => True
  | els, prev, c :: cs, ret =>
      c.prev % 4 = prev ∧ 0 < c.prev ∧
      match c.event with
      | .section_ => ∃ n rest, Holds c.path (els ++ [n]) rest ∧ c.val = none ∧
          Traced (els ++ [n]) 1 cs ret
      | .option => ∃ n rest, Holds c.path (els ++ [n]) rest ∧ c.val = none ∧ Traced els 3 cs ret
      | .optionData => ∃ n rest v, Holds c.path (els ++ [n]) rest ∧ c.val = some v ∧ v <+: rest ∧
          Traced els 3 cs ret
      | .data => ∃ rest v, Holds c.path els rest ∧ c.val = some v ∧ v <+: rest ∧
          Traced els 0 cs ret
      | .sectEnd => ∃ rest, Holds c.path els rest ∧ c.val = none ∧
          (els = [] → cs = [] ∧ ret = Error.missingData.code) ∧ Traced els.dropLast 2 cs ret

/-- A state between two elements. -/
structure Ready (els : List (List Byte)) (s : Parser) : Prop where
  holds : Holds s.path els []
  valid : s.valid = 0
  line : s.line ≠ 0
  prev : 0 < s.prev

/-- What is taken from the source is in front of the rest, and its line ends are counted. -/
def Counts (s s' : Parser) : Prop :=
  ∃ l, s.input = l ++ s'.input ∧ s'.line = s.line + l.count 10

theorem Counts.refl (s : Parser) : Counts s s := ⟨[], rfl, by simp⟩

theorem Counts.trans {s s' s'' : Parser} (h : Counts s s') (h' : Counts s' s'') : Counts s s'' := by
  obtain ⟨l, eq, line⟩ := h
  obtain ⟨l', eq', line'⟩ := h'
  refine ⟨l ++ l', ?_, ?_⟩
  · rw [eq, eq', List.append_assoc]
  · rw [line', line, List.count_append, Nat.add_assoc]

variable {s s' : Parser} {els : List (List Byte)} {e : Event}

theorem Ready.gathers (h : Ready els s) : Gathers els s := ⟨[], h.holds, by rw [h.valid]; rfl⟩

/-- The value is made of bytes behind the path. -/
theorem value_prefix {cs : List Byte} (h : Holds s.path els cs) (valid : s.valid ≤ cs.length) :
    s.path.mem.read (s.path.off + s.path.len) s.valid <+: cs := by
  rw [h.behind valid]
  exact List.take_prefix _ _

/-- A named element is removed from the path, if it is not a section. -/
theorem left_named {n : List Byte} {cs : List Byte} (h : Holds s.path (els ++ [n]) cs)
    (option : has e.flags Event.sectEnd.flags = true) :
    ∃ q r, s.left e = ({ s with path := q }, .ok r) ∧ Holds q els [] := by
  obtain ⟨q, eq, holds, _⟩ := h.del
  exact ⟨q, n.length, by simp only [Parser.left, option, if_true, eq], holds⟩

theorem left_kept {cs : List Byte} (h : Holds s.path els cs)
    (kept : has e.flags Event.sectEnd.flags = false) :
    ∃ q r, s.left e = ({ s with path := q }, .ok r) ∧ Holds q els [] := by
  obtain ⟨q, r, eq, holds, _⟩ := h.invalidate
  exact ⟨q, r, by simp only [Parser.left, kept, Bool.false_eq_true, if_false, eq], holds⟩

theorem ready_cycled {q : Path} (holds : Holds q els []) (noted : Noted s (.ok (some e)))
    (line : s.line ≠ 0) : Ready els (Parser.cycled { s with path := q }) :=
  ⟨holds, rfl, line, noted.2⟩

/-- What follows an element that was found: the call for it, with a state between elements
    behind it if there is one. -/
theorem traced_step {s₁ : Parser} (ready : Ready els s) (finds : Finds els s s₁ (.ok (some e))) :
    (∃ err, s₁.left e = (s₁, .error err) ∧ els = [] ∧ e = .sectEnd) ∨
      ∃ q r els', s₁.left e = ({ s₁ with path := q }, .ok r) ∧
        Ready els' (Parser.cycled { s₁ with path := q }) ∧
        ∀ cs ret, Traced els' (e.flags % 4) cs ret → Traced els (s.prev % 4) (s₁.call e :: cs) ret := by
  obtain ⟨after, found, noted⟩ := finds
  have prev : s₁.prev = s.prev := after.prev
  have before : s₁.prev % 4 = s.prev % 4 ∧ 0 < s₁.prev := by
    rw [prev]
    exact ⟨rfl, ready.prev⟩
  cases e with
  | section_ =>
      obtain ⟨n, cs, holds⟩ := found
      obtain ⟨q, r, eq, left⟩ := left_kept (s := s₁) (e := .section_) holds rfl
      exact .inr ⟨q, r, els ++ [n], eq, ready_cycled left noted after.line,
        fun _ _ more => ⟨before.1, before.2, n, cs, holds, rfl, more⟩⟩
  | option =>
      obtain ⟨n, cs, holds, valid⟩ := found
      obtain ⟨q, r, eq, left⟩ := left_named (s := s₁) (e := .option) holds rfl
      exact .inr ⟨q, r, els, eq, ready_cycled left noted after.line,
        fun _ _ more => ⟨before.1, before.2, n, cs, holds, rfl, more⟩⟩
  | optionData =>
      obtain ⟨n, cs, holds, valid⟩ := found
      obtain ⟨q, r, eq, left⟩ := left_named (s := s₁) (e := .optionData) holds rfl
      exact .inr ⟨q, r, els, eq, ready_cycled left noted after.line,
        fun _ _ more => ⟨before.1, before.2, n, cs, _, holds, rfl, value_prefix holds valid, more⟩⟩
  | data =>
      obtain ⟨cs, holds, valid⟩ := found
      obtain ⟨q, r, eq, left⟩ := left_kept (s := s₁) (e := .data) holds rfl
      exact .inr ⟨q, r, els, eq, ready_cycled left noted after.line,
        fun _ _ more => ⟨before.1, before.2, cs, _, holds, rfl, value_prefix holds valid, more⟩⟩
  | sectEnd =>
      obtain ⟨cs, holds, valid⟩ := found
      rcases List.eq_nil_or_concat els with rfl | ⟨es, n, rfl⟩
      · have none : s₁.path.len = 0 := holds.len
        exact .inl ⟨.missingData, by simp [Parser.left, Config.Path.del, none, has, Event.flags], rfl, rfl⟩
      · rw [List.concat_eq_append] at holds ⊢
        obtain ⟨q, r, eq, left⟩ := left_named (s := s₁) (e := .sectEnd) holds rfl
        refine .inr ⟨q, r, es, eq, ready_cycled left noted after.line,
          fun _ _ more => ⟨before.1, before.2, cs, holds, rfl, fun none => by simp at none, ?_⟩⟩
        rw [List.dropLast_concat]
        exact more

/-- Of every run, the calls are nested and the lines are counted. -/
theorem traced_calls (type : FormatType) (fmt : Format) {fuel : Nat} {cs : List Call} {ret : Int}
    (ready : Ready els s) (run : calls (type.next fmt) fuel s = some (cs, s', ret)) :
    Traced els (s.prev % 4) cs ret ∧ Counts s s' := by
  induction fuel generalizing els s cs with
  | zero => cases run
  | succ fuel ih =>
      obtain ⟨finds, _⟩ := finds_next type fmt ready.gathers ready.line
      rw [calls] at run
      split at run
      · next eq =>
        rw [eq] at finds
        cases run
        exact ⟨trivial, finds.after.read⟩
      · next eq =>
        rw [eq] at finds
        cases run
        exact ⟨trivial, finds.after.read⟩
      · next s₁ e eq =>
        rw [eq] at finds
        have noted := finds.noted
        rcases traced_step ready finds with ⟨err, left, rfl, rfl⟩ | ⟨q, r, els', left, ready', trace⟩
        · rw [left] at run
          cases run
          refine ⟨⟨?_, ?_, ?_⟩, finds.after.read⟩
          · exact congrArg (· % 4) finds.after.prev
          · have same : s₁.prev = s.prev := finds.after.prev
            show 0 < s₁.prev
            rw [same]
            exact ready.prev
          · obtain ⟨cs, holds, _⟩ := finds.found
            exact ⟨cs, holds, rfl, fun _ => ⟨rfl, rfl⟩, trivial⟩
        · rw [left] at run
          obtain ⟨⟨cs', s₂, ret'⟩, more, same⟩ := Option.map_eq_some_iff.mp run
          cases same
          obtain ⟨traced, counts⟩ := ih ready' more
          have flags : (Parser.cycled { s₁ with path := q }).prev % 4 = e.flags % 4 := noted.1
          rw [flags] at traced
          exact ⟨trace _ _ traced, (show Counts s s₁ from finds.after.read).trans counts⟩

/-- What is left to do: every character, and the end of a section that has no character. -/
def remaining (s : Parser) : Nat := 2 * s.input.length + if s.prev % 16 = 2 then 1 else 0

theorem remaining_le (s : Parser) : remaining s ≤ 2 * s.input.length + 1 := by
  unfold remaining
  split <;> omega

theorem remaining_other (other : s.prev % 16 ≠ 2) : remaining s = 2 * s.input.length := by
  rw [remaining, if_neg other, Nat.add_zero]

theorem remaining_ended (ended : s.prev % 16 = 2) : remaining s = 2 * s.input.length + 1 := by
  rw [remaining, if_pos ended]

theorem le_remaining (s : Parser) : 2 * s.input.length ≤ remaining s := Nat.le_add_right _ _

/-- With enough steps a run comes to its end. -/
theorem calls_end (type : FormatType) (fmt : Format) (fuel : Nat) (ready : Ready els s)
    (enough : remaining s < fuel) : ∃ r, calls (type.next fmt) fuel s = some r := by
  induction fuel generalizing els s with
  | zero => cases enough
  | succ fuel ih =>
      obtain ⟨finds, advances⟩ := finds_next type fmt ready.gathers ready.line
      rw [calls]
      split
      · exact ⟨_, rfl⟩
      · exact ⟨_, rfl⟩
      · next s₁ e eq =>
        rw [eq] at finds advances
        rcases traced_step ready finds with ⟨err, left, _⟩ | ⟨q, r, els', left, ready', _⟩
        · rw [left]
          exact ⟨_, rfl⟩
        · rw [left]
          have fewer : remaining (Parser.cycled { s₁ with path := q }) < fuel := by
            have least := le_remaining s
            rcases advances e rfl with less | ⟨less, ended, other⟩
            · have most : remaining (Parser.cycled { s₁ with path := q }) ≤
                  2 * s₁.input.length + 1 := remaining_le _
              have less : s₁.input.length < s.input.length := less
              omega
            · have most : remaining (Parser.cycled { s₁ with path := q }) = 2 * s₁.input.length :=
                remaining_other other
              have less : s₁.input.length ≤ s.input.length := less
              rw [remaining_ended ended] at enough
              omega
          obtain ⟨r', more⟩ := ih ready' fewer
          exact ⟨_, congrArg (Option.map fun r => (s₁.call e :: r.1, r.2)) more⟩

/-- More steps than needed make no difference. -/
theorem calls_mono {next : Parser → Parser × Result} {fuel more : Nat} {r : List Call × Parser × Int}
    (run : calls next fuel s = some r) (le : fuel ≤ more) : calls next more s = some r := by
  induction fuel generalizing s more r with
  | zero => cases run
  | succ fuel ih =>
      obtain ⟨more, rfl⟩ := Nat.exists_eq_succ_of_ne_zero (by omega : more ≠ 0)
      rw [calls] at run ⊢
      generalize next s = found at run ⊢
      obtain ⟨s₁, err | none | e⟩ := found
      · exact run
      · exact run
      · dsimp only at run ⊢
        generalize s₁.left e = left at run ⊢
        obtain ⟨s₂, err | n⟩ := left
        · exact run
        · obtain ⟨r', further, same⟩ := Option.map_eq_some_iff.mp run
          dsimp only
          rw [ih further (Nat.le_of_succ_le_succ le)]
          exact congrArg some same

/-- The state for a text, as `mpt_parse_node` starts with it. -/
def Parser.start (input : List Byte) (fin : Error) (sect opt : Nat)
    (grants : Nat → Option (Mem Byte)) : Parser :=
  ⟨input, fin, 1, sect, opt, 0, Event.section_.flags, 0, .init false 46 0, grants⟩

variable (type : FormatType) (fmt : Format) (input : List Byte) (fin : Error) (sect opt : Nat)
  (grants : Nat → Option (Mem Byte))

theorem ready_start : Ready [] (Parser.start input fin sect opt grants) :=
  ⟨.init 46 0, rfl, Nat.one_ne_zero, Nat.one_pos⟩

/-- Every text is parsed to an end.  The elements that are handed on are nested, whatever the
    handler makes of them, and a section that ends without a beginning is the last one. -/
theorem config_nested : ∃ cs s' ret,
    (∀ (σ : Type) (save : σ → Call → Option σ) (x : σ) (fuel : Nat), 2 * input.length < fuel →
      ∃ s'', config (type.next fmt) save fuel x (Parser.start input fin sect opt grants) =
        some ((handOver save x cs ret).1, s'', (handOver save x cs ret).2)) ∧
    calls (type.next fmt) (2 * input.length + 1) (Parser.start input fin sect opt grants) =
      some (cs, s', ret) ∧
    Traced [] 1 cs ret := by
  have ready := ready_start input fin sect opt grants
  obtain ⟨⟨cs, s', ret⟩, run⟩ := calls_end type fmt (2 * input.length + 1) ready (by
    simp [remaining, Parser.start, Event.flags])
  refine ⟨cs, s', ret, fun σ save x fuel enough => ?_, run, (traced_calls type fmt ready run).1⟩
  exact config_handOver save x (calls_mono run enough)

/-- The line of a parser is one more than the line ends that were read. -/
theorem line_counted (fuel : Nat) (cs : List Call) (s' : Parser) (ret : Int)
    (run : calls (type.next fmt) fuel (Parser.start input fin sect opt grants) = some (cs, s', ret)) :
    ∃ l, input = l ++ s'.input ∧ s'.line = 1 + l.count 10 :=
  (traced_calls type fmt (ready_start input fin sect opt grants) run).2

/-- A line with a comment, and an empty one. -/
theorem line_counted_comment : ∃ cs s' ret,
    calls (FormatType.pre.next .init) 7 (.start [35, 10, 10] .missingData 255 255 fun _ => none) =
      some (cs, s', ret) ∧
    ∃ l, [35, 10, 10] = l ++ s'.input ∧ s'.line = 1 + l.count 10 := by
  obtain ⟨⟨cs, s', ret⟩, run⟩ := calls_end .pre .init 7
    (ready_start [35, 10, 10] .missingData 255 255 fun _ => none) (by decide)
  exact ⟨cs, s', ret, run, line_counted .pre .init _ _ _ _ _ 7 cs s' ret run⟩

end Mpt.Parse
