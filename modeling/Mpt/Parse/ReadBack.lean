import Mpt.Parse.Layout

/-! # The tree of a text is read back

Character by character the name and the value of an option gather behind the path, and the
number of valid bytes follows them.  Each text of an element is read to its end, so that a
text of a tree is read as the elements of the tree.
-/

namespace Mpt.Parse

open Config (Path)
open Config.Path (Holds gather gather_keep)

/-- A state with these elements, these bytes behind them and this text to come. -/
structure State (t : Parser) (els : List (List Byte)) (cs : List Byte) (keep : Bool) (valid : Nat)
    (input : List Byte) (s : Parser) : Prop where
  after : After t s
  holds : Holds s.path els cs
  keep : s.path.keepPost = keep
  valid : s.valid = valid
  input : s.input = input
  granted : ∀ n, s.grants n ≠ none

variable {t s : Parser} {els : List (List Byte)} {cs input rest : List Byte} {keep : Bool}
  {v : Nat} {c : Byte} {fmt : Format}

namespace State

theorem curr (h : State t els cs keep v input s) (n : Nat) :
    State t els cs keep v input { s with curr := n } :=
  ⟨h.after.curr n, h.holds, h.keep, h.valid, h.input, h.granted⟩

theorem passed (h : State t els cs keep v (c :: rest) s) :
    State t els cs keep v rest (s.passed c rest) :=
  ⟨h.after.passed h.input, h.holds, h.keep, h.valid, rfl, h.granted⟩

theorem addchar (h : State t els cs keep v input s) (c : Byte) :
    ∃ s' n, s.addchar c = (s', .ok n) ∧ State t els (gather cs keep c) keep v input s' := by
  have after := h.after.addchar c
  rcases h.holds.addchar c (s.grants 0) with ⟨q, n, eq, holds, same⟩ | ⟨e, _, none⟩
  · unfold Parser.addchar at after ⊢
    rw [eq] at after ⊢
    refine ⟨_, n, rfl, after, ?_, same.trans h.keep, h.valid, h.input, fun n => h.granted (n + 1)⟩
    rw [← h.keep]
    exact holds
  · exact absurd none (h.granted 0)

theorem getchar (h : State t els cs keep v (c :: rest) s) (char : c ≠ 0) :
    ∃ s', s.getchar = (s', .ok c) ∧ State t els (gather cs keep c) keep v rest s' := by
  obtain ⟨s', n, eq, state⟩ := h.passed.addchar c
  refine ⟨s', ?_, state⟩
  unfold Parser.getchar
  simp only [h.input]
  rw [if_neg char, eq]

theorem delchar (h : State t els cs keep v input s) :
    State t els cs.dropLast keep v input s.delchar := by
  have after := h.after.delchar
  obtain ⟨q, r, eq, holds, same⟩ := h.holds.delchar
  unfold Parser.delchar at after ⊢
  rw [eq] at after ⊢
  exact ⟨after, holds, same.trans h.keep, h.valid, h.input, h.granted⟩

/-- All bytes are valid, and they stay if there are any. -/
theorem kept (h : State t els cs keep v input s) :
    State t els cs (if cs ≠ [] then true else keep) (cs.length % 2 ^ 16) input s.keep := by
  have after := h.after.keep
  unfold Parser.keep at after ⊢
  rw [h.holds.valid] at after ⊢
  refine ⟨after, h.holds.keeping _, ?_, rfl, h.input, h.granted⟩
  rw [← h.keep]

theorem kept_some (h : State t els cs keep v input s) (bytes : cs ≠ []) :
    State t els cs true (cs.length % 2 ^ 16) input s.keep := by
  have kept := h.kept
  rw [if_pos bytes] at kept
  exact kept

end State

/-- What comes of a turn of a loop when this text is to come. -/
def Turn.resume {σ ρ : Type} (body : σ → Parser → Byte → Turn σ ρ)
    (fails : Parser → Error → Parser × ρ) (rest : List Byte) : Turn σ ρ → Parser × ρ
  | .stop s r => (s, r)
  | .next s x => scan body fails rest x s

theorem resume_leave {σ ρ : Type} (body : σ → Parser → Byte → Turn σ ρ)
    (fails : Parser → Error → Parser × ρ) (rest : List Byte) (r : Parser × ρ) :
    (Turn.leave r).resume body fails rest = r := rfl

/-- One more turn of a loop. -/
theorem scan_cons {σ ρ : Type} (body : σ → Parser → Byte → Turn σ ρ)
    (fails : Parser → Error → Parser × ρ) (x : σ) (h : State t els cs keep v (c :: rest) s)
    (char : c ≠ 0) : ∃ s', State t els (gather cs keep c) keep v rest s' ∧
      scan body fails (c :: rest) x s = (body x s' c).resume body fails rest := by
  obtain ⟨s', got, state⟩ := h.getchar char
  have same : { s with input := c :: rest } = s := by
    rw [← h.input]
  refine ⟨s', state, ?_⟩
  rw [scan, same, got]
  rfl

theorem isComment_eq (char : c ≠ 0) : fmt.isComment c = fmt.com.contains c := by
  simp [Format.isComment, char]

/-- A line is passed over. -/
theorem endline_line {l g : List Byte} (line : 10 ∉ l) (h : State t els cs keep v (l ++ 10 :: g) s) :
    ∃ s', s.endline = (s', .ok l.length) ∧ State t els cs keep v g s' := by
  have none : ∀ x ∈ l, decide (x ≠ 10) = true := by
    intro x mem
    simp only [ne_eq, decide_eq_true_eq]
    rintro rfl
    exact line mem
  have ends : s.input.dropWhile (· ≠ 10) = 10 :: g := by
    rw [h.input, List.dropWhile_append_of_pos none]
    rfl
  have before : s.input.takeWhile (· ≠ 10) = l := by
    rw [h.input, List.takeWhile_append_of_pos none]
    simp
  have after := h.after.endline
  unfold Parser.endline at after ⊢
  rw [ends, before] at after ⊢
  exact ⟨_, rfl, after, h.holds, h.keep, h.valid, rfl, h.granted⟩

theorem State.ahead {input' : List Byte} (h : State t els cs keep v input s) (eq : input = input') :
    State t els cs keep v input' s := eq ▸ h

/-- What is between two elements is passed over, up to the rest of the text. -/
theorem nextvis_gap {g : List Byte} (gap : Gap fmt g) (h : State t els cs keep v (g ++ rest) s) :
    ∃ s', s.nextvis fmt.com = s'.nextvis fmt.com ∧ State t els cs keep v rest s' := by
  induction gap generalizing s with
  | nil => exact ⟨s, rfl, h⟩
  | space c g space _ ih =>
      obtain ⟨s', eq, state⟩ := ih (s := s.passed c (g ++ rest)) h.passed
      refine ⟨s', ?_, state⟩
      have zero : c ≠ 0 := by
        rintro rfl
        simp [isSpace] at space
      rw [Parser.nextvis_cons fmt.com h.input, if_neg zero, if_pos space]
      exact eq
  | comment c l g char visible com line _ ih =>
      have whole : State t els cs keep v (c :: (l ++ 10 :: (g ++ rest))) s := h.ahead (by simp)
      obtain ⟨s₁, ended, state⟩ := endline_line line whole.passed
      obtain ⟨s', eq, state'⟩ := ih state
      refine ⟨s', ?_, state'⟩
      rw [Parser.nextvis_cons fmt.com whole.input, if_neg char, visible, com, ended]
      exact eq

/-- The first character of an element is found. -/
theorem nextvis_char {g : List Byte} (gap : Gap fmt g) (char : c ≠ 0) (visible : isSpace c = false)
    (com : fmt.com.contains c = false) (h : State t els cs keep v (g ++ c :: rest) s) :
    ∃ s', s.nextvis fmt.com = (s', .ok c) ∧ State t els cs keep v rest s' := by
  obtain ⟨s', eq, state⟩ := nextvis_gap gap h
  refine ⟨_, ?_, state.passed⟩
  rw [eq, Parser.nextvis_cons fmt.com state.input, if_neg char, visible, com]
  rfl

/-- Behind the last element there is nothing. -/
theorem nextvis_end {g : List Byte} (gap : Gap fmt g) (h : State t els cs keep v g s) :
    ∃ s', s.nextvis fmt.com = (s', .error s'.fin) ∧ State t els cs keep v [] s' := by
  obtain ⟨s', eq, state⟩ := nextvis_gap gap (h.ahead (List.append_nil g).symm)
  refine ⟨s', ?_, state⟩
  rw [eq, Parser.nextvis_nil fmt.com state.input, begun_eq state.after.line]

/-- The number of valid bytes behind a path: up to the last visible one. -/
def validOf (v n : Nat) : List Byte → Nat
  | [] => v
  | c :: w => validOf (if isSpace c then v else (n + 1) % 2 ^ 16) (n + 1) w

theorem validOf_append (v n : Nat) (w w' : List Byte) :
    validOf v n (w ++ w') = validOf (validOf v n w) (n + w.length) w' := by
  induction w generalizing v n with
  | nil => rfl
  | cons c w ih =>
      rw [List.cons_append, validOf, ih, validOf, List.length_cons, Nat.add_assoc, Nat.add_comm 1]

theorem validOf_visible (v n : Nat) {w : List Byte} (last : ∃ l c, w = l ++ [c] ∧ isSpace c = false) :
    validOf v n w = (n + w.length) % 2 ^ 16 := by
  obtain ⟨l, c, rfl, visible⟩ := last
  rw [validOf_append, validOf, visible, List.length_append]
  rfl

theorem validOf_blank (v n : Nat) {w : List Byte} (blank : Blank w) : validOf v n w = v := by
  induction w generalizing n with
  | nil => rfl
  | cons c w ih =>
      rw [validOf, if_pos (blank c (by simp)).1]
      exact ih (n + 1) fun x mem => blank x (by simp [mem])

/-- The valid bytes of a name with white space behind it. -/
theorem validOf_name {front w before : List Byte}
    (first : ∃ l d, front = l ++ [d] ∧ isSpace d = false)
    (last : ∃ l d, front ++ w = l ++ [d] ∧ isSpace d = false) (blank : Blank before)
    (short : (front ++ w).length < 256) :
    validOf (front.length % 2 ^ 16) front.length (w ++ before) = (front ++ w).length := by
  have all := validOf_visible 0 0 last
  rw [validOf_append, validOf_visible 0 0 first, Nat.zero_add] at all
  rw [validOf_append, validOf_blank _ _ blank]
  refine all.trans ?_
  rw [Nat.zero_add, Nat.mod_eq_of_lt (by omega)]

/-- A loop gathers some characters, and takes the visible ones as valid. -/
def Takes (body : Unit → Parser → Byte → Turn Unit Result) (op : Parser → Nat)
    (chars : Byte → Prop) : Prop :=
  ∀ c, chars c → c ≠ 0 ∧ ∀ s : Parser, body () s c =
    if isSpace c then .next { s with curr := op s } () else .next { s with curr := op s }.keep ()

theorem takes_scan {body : Unit → Parser → Byte → Turn Unit Result} {op : Parser → Nat}
    {chars : Byte → Prop} (takes : Takes body op chars) {w : List Byte} (inside : ∀ c ∈ w, chars c)
    (fails : Parser → Error → Parser × Result) (h : State t els cs true v (w ++ rest) s) :
    ∃ s', scan body fails (w ++ rest) () s = scan body fails rest () s' ∧
      State t els (cs ++ w) true (validOf v cs.length w) rest s' := by
  induction w generalizing s cs v with
  | nil =>
      rw [List.append_nil]
      exact ⟨s, rfl, h⟩
  | cons c w ih =>
      obtain ⟨char, turn⟩ := takes c (inside c (by simp))
      have whole : State t els cs true v (c :: (w ++ rest)) s := h
      obtain ⟨s₁, state, eq⟩ := scan_cons body fails () whole char
      rw [gather_keep] at state
      obtain ⟨s₂, turn, state₂⟩ : ∃ s₂, body () s₁ c = .next s₂ () ∧
          State t els (cs ++ [c]) true (if isSpace c then v else (cs.length + 1) % 2 ^ 16) (w ++ rest)
            s₂ := by
        rw [turn]
        by_cases space : isSpace c = true
        · rw [if_pos space, if_pos space]
          exact ⟨_, rfl, state.curr _⟩
        · rw [if_neg space, if_neg space]
          refine ⟨_, rfl, ?_⟩
          have kept := (state.curr (op s₁)).kept_some (by simp)
          rw [List.length_append, List.length_singleton] at kept
          exact kept
      obtain ⟨s', more, state'⟩ := ih (fun x mem => inside x (by simp [mem])) state₂
      refine ⟨s', ?_, ?_⟩
      · rw [List.cons_append, eq, turn]
        exact more
      · rw [List.append_assoc, List.length_append] at state'
        rw [validOf]
        exact state'

/-- The characters of a name, and white space behind it. -/
def InName (fmt : Format) (c : Byte) : Prop :=
  c ≠ 0 ∧ c ≠ 10 ∧ c ≠ fmt.send ∧ c ≠ fmt.sstart ∧ c ≠ fmt.assign ∧ fmt.com.contains c = false

theorem takes_pre (plain : Plain fmt) : Takes (preBody fmt) (fun _ => 8) (InName fmt) := by
  rintro c ⟨char, line, send, sstart, assign, com⟩
  refine ⟨char, fun s => ?_⟩
  unfold preBody
  rw [if_neg send, if_neg sstart, plain.ostart, if_neg char, if_neg assign, plain.oend, if_neg char,
    isComment_eq char, com]
  by_cases space : isSpace c = true
  · rw [space, if_neg line]
    rfl
  · simp [space]

theorem Plain.inName (plain : Plain fmt) (space : isSpace c = true) (line : c ≠ 10) : InName fmt c := by
  have apart {d : Byte} (visible : isSpace d = false) : c ≠ d := by
    rintro rfl
    rw [space] at visible
    cases visible
  exact ⟨apart rfl, line, apart plain.send.2.1, apart plain.sstart.2, apart plain.assign.2.1,
    (plain.space c space).1⟩

theorem Named.inside {take : Nat} {name before : List Byte} (named : Named fmt take name)
    (plain : Plain fmt) (blank : Blank before) : ∀ x ∈ name ++ before, InName fmt x := by
  intro x mem
  rcases List.mem_append.mp mem with mem | mem
  · obtain ⟨char, line, _, send, sstart, assign, com⟩ := named.chars x mem
    exact ⟨char, line, send, sstart, assign, com⟩
  · exact plain.inName (blank x mem).1 (blank x mem).2

/-- The name of an element gathers up to the character behind it. -/
theorem name_gathers (plain : Plain fmt) {take : Nat} {g name before : List Byte} {stop : Byte}
    (gap : Gap fmt g) (named : Named fmt take name) (blank : Blank before) (end_ : stop ≠ 0)
    (h : State t els [] false 0 (g ++ (name ++ (before ++ stop :: rest))) s) :
    ∃ s', State t els (name ++ before ++ [stop]) true name.length rest s' ∧
      formatPre fmt s =
        (preBody fmt () s' stop).resume (preBody fmt) (fun s _ => preEnd fmt s none) rest := by
  obtain ⟨c, l, rfl, visible⟩ := named.visible.first
  have inside := named.inside plain blank
  have first := inside c (by simp)
  have whole : State t els [] false 0 (g ++ c :: (l ++ (before ++ stop :: rest))) s := h
  obtain ⟨s₁, found, state⟩ := nextvis_char gap first.1 visible first.2.2.2.2.2 whole
  obtain ⟨s₂, n, added, state⟩ := (state.curr 8).addchar c
  rw [Path.gather_first] at state
  have kept := (state.curr 8).kept_some (by simp)
  have more : ∀ x ∈ l ++ before, InName fmt x := fun x mem => inside x (by simp [mem])
  obtain ⟨s₃, scanned, state⟩ := takes_scan (takes_pre plain) more (fun s _ => preEnd fmt s none)
    (kept.ahead (List.append_assoc _ _ _).symm)
  have valid : validOf ([c].length % 2 ^ 16) [c].length (l ++ before) = (c :: l).length :=
    validOf_name ⟨[], c, rfl, visible⟩ named.visible.last blank named.short
  rw [valid] at state
  obtain ⟨s₄, state, stopped⟩ := scan_cons (preBody fmt) (fun s _ => preEnd fmt s none) () state end_
  rw [gather_keep] at state
  refine ⟨s₄, by simpa using state, ?_⟩
  unfold formatPre
  rw [found]
  dsimp only
  rw [if_neg first.2.2.2.1, added]
  dsimp only
  unfold scanFrom
  rw [(takes_pre plain c first).2, visible]
  simp only [Bool.false_eq_true, if_false]
  rw [kept.input, List.append_assoc] at *
  rw [scanned, stopped]

/-- A name becomes an element of the path. -/
theorem name_added {take : Nat} {name : List Byte} (named : Named fmt take name)
    (h : State t els (name ++ cs) true name.length rest s) (sep : t.path.sep = 46) :
    ncheck (s.word s.valid) take = .ok () ∧
      ∃ s' n cs', s.addPath s.valid = (s', .ok n) ∧ State t (els ++ [name]) cs' false name.length rest s' := by
  obtain ⟨c, l, shape, _⟩ := named.visible.first
  have le : s.valid ≤ (name ++ cs).length := by
    rw [h.valid, List.length_append]
    exact Nat.le_add_right _ _
  have taken : (name ++ cs).take s.valid = name := by
    rw [h.valid, List.take_left]
  have dots : s.path.sep ∉ name := by
    rw [h.after.sep, sep]
    exact fun mem => (named.chars 46 mem).2.2.1 rfl
  have based : s.path.base ≠ .null := by
    intro null
    have empty := (h.holds.null null).2.1
    rw [shape] at empty
    cases empty
  constructor
  · have word : s.word s.valid = .bytes name := by
      rcases word_bytes h.holds le with ⟨_, zero⟩ | word
      · rw [h.valid, shape] at zero
        cases zero
      · rw [word, taken]
    rw [word]
    unfold ncheck
    rw [if_neg]
    · exact named.taken
    · rw [shape]
      exact Nat.succ_ne_zero _
  · have after := h.after.addPath s.valid
    rcases h.holds.add le (s.grants 0) with ⟨q, eq, holds, keep, _⟩ | ⟨e, _, null | mem | none⟩
    · unfold Parser.addPath at after ⊢
      rw [eq] at after ⊢
      rw [taken] at holds
      exact ⟨_, 0, _, rfl, after, holds, keep, h.valid, h.input, fun n => h.granted (n + 1)⟩
    · exact absurd null based
    · rw [taken] at mem
      exact absurd mem dots
    · exact absurd none (h.granted 0)

/-- The name of a section is read. -/
theorem section_read (plain : Plain fmt) {g name before : List Byte} (gap : Gap fmt g)
    (named : Named fmt t.sect name) (blank : Blank before) (sep : t.path.sep = 46)
    (h : State t els [] false 0 (g ++ (name ++ (before ++ fmt.sstart :: rest))) s) :
    ∃ s' cs' v', formatPre fmt s = (s', .ok (some .section_)) ∧
      State t (els ++ [name]) cs' false v' rest s' := by
  obtain ⟨s₁, state, eq⟩ := name_gathers plain gap named blank plain.sstart.1 h
  rw [List.append_assoc] at state
  have named' : Named fmt ({ s₁ with curr := 9 } : Parser).sect name := by
    rw [(state.curr 9).after.sect]
    exact named
  obtain ⟨taken, s', n, cs', added, state'⟩ := name_added named' (state.curr 9) sep
  refine ⟨s', cs', name.length, ?_, state'⟩
  have turn : preBody fmt () s₁ fmt.sstart = .leave { s₁ with curr := 9 }.openSection := by
    unfold preBody preEnd
    rw [if_neg plain.send.2.2.1.symm, if_pos rfl, if_pos ⟨plain.sstart.1, rfl⟩]
  rw [eq, turn, resume_leave]
  unfold Parser.openSection
  rw [taken]
  dsimp only
  rw [added]

/-- The end of a section is read. -/
theorem end_read (plain : Plain fmt) {g : List Byte} (gap : Gap fmt g)
    (h : State t els [] false 0 (g ++ fmt.send :: rest) s) :
    ∃ s' cs', formatPre fmt s = (s', .ok (some .sectEnd)) ∧ State t els cs' false 0 rest s' := by
  obtain ⟨s₁, found, state⟩ := nextvis_char gap plain.send.1 plain.send.2.1 plain.send.2.2.2 h
  obtain ⟨s₂, n, added, state⟩ := (state.curr 8).addchar fmt.send
  refine ⟨_, _, ?_, state.curr 2⟩
  unfold formatPre
  rw [found]
  dsimp only
  rw [if_neg plain.send.2.2.1, added]
  dsimp only
  unfold scanFrom preBody
  rw [if_pos rfl]

/-- One pass of the loop for values, outside of quotes. -/
theorem dataBody_plain (plain : Plain fmt) (last : Option Byte) (s : Parser) (char : c ≠ 0)
    (line : c ≠ 10) (com : fmt.com.contains c = false) (esc : fmt.esc.contains c = false) :
    dataBody fmt (0, last) s c =
      if isSpace c then .next s (0, some c) else .next s.keep (0, some c) := by
  unfold dataBody
  have escape : fmt.isEscape c = false := by rw [Format.isEscape, esc, Bool.and_false]
  simp only [ne_eq, not_true_eq_false, if_false, escape, Bool.false_eq_true, plain.oend, char, line,
    isComment_eq char, com, Bool.and_false, Bool.false_and]
  by_cases space : isSpace c = true <;> simp [space]

/-- White space in front of a value does not stay. -/
theorem blank_scan (plain : Plain fmt) {w : List Byte} (blank : Blank w) (last : Option Byte)
    (fails : Parser → Error → Parser × Except Error Byte) (short : cs.length ≤ 1)
    (h : State t els cs false v (w ++ rest) s) :
    ∃ s' last' cs', scan (dataBody fmt) fails (w ++ rest) (0, last) s =
        scan (dataBody fmt) fails rest (0, last') s' ∧
      State t els cs' false v rest s' ∧ cs'.length ≤ 1 := by
  induction w generalizing s cs last with
  | nil => exact ⟨s, last, cs, rfl, h, short⟩
  | cons c w ih =>
      obtain ⟨space, line⟩ := blank c (by simp)
      have char : c ≠ 0 := (plain.inName space line).1
      have whole : State t els cs false v (c :: (w ++ rest)) s := h
      obtain ⟨s₁, state, eq⟩ := scan_cons (dataBody fmt) fails (0, last) whole char
      have fewer : (gather cs false c).length ≤ 1 := by
        simp [gather]
        omega
      obtain ⟨s', last', cs', more, result⟩ :=
        ih (fun x mem => blank x (by simp [mem])) (some c) fewer state
      refine ⟨s', last', cs', ?_, result⟩
      rw [List.cons_append, eq, dataBody_plain plain last s₁ char line (plain.space c space).1
        (plain.space c space).2, if_pos space]
      exact more

/-- White space behind a value is not counted. -/
theorem behind_scan (plain : Plain fmt) {w val : List Byte} (blank : Blank w) (last : Option Byte)
    (fails : Parser → Error → Parser × Except Error Byte)
    (kept : keep = true ∧ val <+: cs ∨ val = []) (h : State t els cs keep v (w ++ rest) s) :
    ∃ s' last' cs', scan (dataBody fmt) fails (w ++ rest) (0, last) s =
        scan (dataBody fmt) fails rest (0, last') s' ∧
      State t els cs' keep v rest s' ∧ (keep = true ∧ val <+: cs' ∨ val = []) := by
  induction w generalizing s cs last with
  | nil => exact ⟨s, last, cs, rfl, h, kept⟩
  | cons c w ih =>
      obtain ⟨space, line⟩ := blank c (by simp)
      have char : c ≠ 0 := (plain.inName space line).1
      have whole : State t els cs keep v (c :: (w ++ rest)) s := h
      obtain ⟨s₁, state, eq⟩ := scan_cons (dataBody fmt) fails (0, last) whole char
      have still : keep = true ∧ val <+: gather cs keep c ∨ val = [] := by
        rcases kept with ⟨rfl, inside⟩ | none
        · exact .inl ⟨rfl, inside.trans (List.prefix_append _ _)⟩
        · exact .inr none
      obtain ⟨s', last', cs', more, result⟩ :=
        ih (fun x mem => blank x (by simp [mem])) (some c) still state
      refine ⟨s', last', cs', ?_, result⟩
      rw [List.cons_append, eq, dataBody_plain plain last s₁ char line (plain.space c space).1
        (plain.space c space).2, if_pos space]
      exact more

/-- The characters of a value gather, when the first ones are kept. -/
theorem plain_scan (plain : Plain fmt) {w : List Byte} (chars : ∀ c ∈ w, c ≠ 0 ∧ c ≠ 10 ∧
      fmt.com.contains c = false ∧ fmt.esc.contains c = false) (last : Option Byte)
    (fails : Parser → Error → Parser × Except Error Byte) (h : State t els cs true v (w ++ rest) s) :
    ∃ s' last', scan (dataBody fmt) fails (w ++ rest) (0, last) s =
        scan (dataBody fmt) fails rest (0, last') s' ∧
      State t els (cs ++ w) true (validOf v cs.length w) rest s' := by
  induction w generalizing s cs v last with
  | nil =>
      rw [List.append_nil]
      exact ⟨s, last, rfl, h⟩
  | cons c w ih =>
      obtain ⟨char, line, com, esc⟩ := chars c (by simp)
      have whole : State t els cs true v (c :: (w ++ rest)) s := h
      obtain ⟨s₁, state, eq⟩ := scan_cons (dataBody fmt) fails (0, last) whole char
      rw [gather_keep] at state
      obtain ⟨s₂, turn, state₂⟩ : ∃ s₂, dataBody fmt (0, last) s₁ c = .next s₂ (0, some c) ∧
          State t els (cs ++ [c]) true (if isSpace c then v else (cs.length + 1) % 2 ^ 16)
            (w ++ rest) s₂ := by
        rw [dataBody_plain plain last s₁ char line com esc]
        by_cases space : isSpace c = true
        · rw [if_pos space, if_pos space]
          exact ⟨_, rfl, state⟩
        · rw [if_neg space, if_neg space]
          refine ⟨_, rfl, ?_⟩
          have kept := state.kept_some (by simp)
          rw [List.length_append, List.length_singleton] at kept
          exact kept
      obtain ⟨s', last', more, state'⟩ := ih (fun x mem => chars x (by simp [mem])) (some c) state₂
      refine ⟨s', last', ?_, ?_⟩
      · rw [List.cons_append, eq, turn]
        exact more
      · rw [List.append_assoc, List.length_append] at state'
        rw [validOf]
        exact state'

/-- Within quotes every character is valid. -/
theorem dataBody_quoted {quote : Byte} (some_ : quote ≠ 0) (last : Option Byte) (s : Parser)
    (other : c ≠ quote) : dataBody fmt (quote, last) s c = .next s.keep (quote, some c) := by
  unfold dataBody
  simp only [ne_eq, some_, not_false_eq_true, if_true, other, if_false]

/-- What is between quotes gathers behind `out`. -/
theorem quoted_scan (fmt : Format) {quote : Byte} (some_ : quote ≠ 0) (other : quote ≠ 92)
    {w : List Byte} (out : List Byte)
    (chars : ∀ c ∈ w, c ≠ 0) (last : Option Byte)
    (fails : Parser → Error → Parser × Except Error Byte)
    (next : ∀ c, gather cs keep c = out ++ [c]) (ends : w = [] → last ≠ some 92)
    (final : w.getLast? ≠ some 92) (h : State t els cs keep v (escaped quote w ++ quote :: rest) s) :
    ∃ s' keep', scan (dataBody fmt) fails (escaped quote w ++ quote :: rest) (quote, last) s =
        scan (dataBody fmt) fails rest (0, some quote) s' ∧
      State t els (out ++ w) keep' ((out ++ w).length % 2 ^ 16) rest s' ∧
      (keep' = true ∨ out ++ w = []) := by
  induction w generalizing s cs keep out v last with
  | nil =>
      have whole : State t els cs keep v (quote :: rest) s := h
      obtain ⟨s₁, state, eq⟩ := scan_cons (dataBody fmt) fails (quote, last) whole some_
      rw [next] at state
      have state := state.delchar
      rw [List.dropLast_concat] at state
      have kept := state.kept
      rw [List.append_nil]
      refine ⟨_, _, ?_, kept, ?_⟩
      · show scan (dataBody fmt) fails (quote :: rest) (quote, last) s = _
        have turn : dataBody fmt (quote, last) s₁ quote = .next s₁.delchar.keep (0, some quote) := by
          unfold dataBody
          simp only [ne_eq, some_, not_false_eq_true, if_true, ends rfl]
        rw [eq, turn]
        rfl
      · by_cases none : out = []
        · exact .inr none
        · exact .inl (if_pos none)
  | cons c w ih =>
      have char := chars c (by simp)
      have more : ∀ x ∈ w, x ≠ 0 := fun x mem => chars x (by simp [mem])
      have final' : w.getLast? ≠ some 92 := by
        cases w with
        | nil => simp
        | cons c' w' => simpa [List.getLast?_cons_cons] using final
      have behind (c' : Byte) : gather (out ++ [c]) true c' = out ++ [c] ++ [c'] := gather_keep _ _
      by_cases same : c = quote
      · subst same
        have text : escaped c (c :: w) ++ c :: rest = 92 :: c :: (escaped c w ++ c :: rest) := by
          simp [escaped]
        rw [text] at h ⊢
        obtain ⟨s₁, state, eq⟩ := scan_cons (dataBody fmt) fails (c, last) h (by decide)
        rw [next] at state
        have kept := state.kept_some (by simp)
        obtain ⟨s₂, state, eq'⟩ := scan_cons (dataBody fmt) fails (c, some 92) kept some_
        rw [gather_keep] at state
        have state := state.delchar.delchar
        rw [List.dropLast_concat, List.dropLast_concat] at state
        obtain ⟨s₃, n, added, state⟩ := state.addchar c
        rw [gather_keep] at state
        obtain ⟨s', keep', scanned, result⟩ := ih (out ++ [c]) more (some c) behind (fun _ eq => other (Option.some.inj eq))
          final' (state.kept_some (by simp))
        refine ⟨s', keep', ?_, ?_⟩
        · have turn : dataBody fmt (c, some 92) s₂ c = .next s₃.keep (c, some c) := by
            unfold dataBody
            simp only [ne_eq, some_, not_false_eq_true, if_true, not_true_eq_false, if_false, added]
          rw [eq, dataBody_quoted some_ last s₁ (Ne.symm other)]
          show scan (dataBody fmt) fails (c :: (escaped c w ++ c :: rest)) (c, some 92) s₁.keep = _
          rw [eq', turn]
          exact scanned
        · rw [List.append_assoc, List.singleton_append] at result
          exact result
      · have text : escaped quote (c :: w) ++ quote :: rest = c :: (escaped quote w ++ quote :: rest) := by
          simp [escaped, same]
        rw [text] at h ⊢
        obtain ⟨s₁, state, eq⟩ := scan_cons (dataBody fmt) fails (quote, last) h char
        rw [next] at state
        obtain ⟨s', keep', scanned, result⟩ := ih (out ++ [c]) more (some c) behind (fun none eq => by
          rw [none, Option.some.inj eq] at final
          exact final rfl) final' (state.kept_some (by simp))
        refine ⟨s', keep', ?_, ?_⟩
        · rw [eq, dataBody_quoted some_ last s₁ same]
          exact scanned
        · rw [List.append_assoc, List.singleton_append] at result
          exact result

/-- A value is read in each of its texts. -/
theorem written_scan (plain : Plain fmt) {val d : List Byte} (written : Written fmt val d)
    (last : Option Byte) (fails : Parser → Error → Parser × Except Error Byte) (short : cs.length ≤ 1)
    (h : State t els cs false 0 (d ++ rest) s) :
    ∃ s' last' cs' keep', scan (dataBody fmt) fails (d ++ rest) (0, last) s =
        scan (dataBody fmt) fails rest (0, last') s' ∧
      State t els cs' keep' (val.length % 2 ^ 16) rest s' ∧
      (keep' = true ∧ val <+: cs' ∨ val = []) := by
  have single (c : Byte) : gather cs false c = [c] := by
    have none : cs.dropLast = [] := by
      apply List.eq_nil_of_length_eq_zero
      rw [List.length_dropLast]
      omega
    simp [gather, none]
  cases written with
  | none => exact ⟨s, last, cs, false, rfl, h, .inr rfl⟩
  | plain _ visible chars =>
      obtain ⟨c, l, rfl, first⟩ := visible.first
      obtain ⟨char, line, com, esc⟩ := chars c (by simp)
      have whole : State t els cs false 0 (c :: (l ++ rest)) s := h
      obtain ⟨s₁, state, eq⟩ := scan_cons (dataBody fmt) fails (0, last) whole char
      rw [single] at state
      obtain ⟨s', last', more, state⟩ := plain_scan plain (fun x mem => chars x (by simp [mem]))
        (some c) fails (state.kept_some (by simp))
      have valid : validOf ([c].length % 2 ^ 16) [c].length l = (c :: l).length % 2 ^ 16 := by
        have all := validOf_visible 0 0 visible.last
        rw [validOf, first, Nat.zero_add, Nat.zero_add] at all
        exact all
      rw [valid] at state
      refine ⟨s', last', _, true, ?_, state, .inl ⟨rfl, List.prefix_refl _⟩⟩
      rw [List.cons_append, eq, dataBody_plain plain last s₁ char line com esc, first]
      exact more
  | quoted quote _ esc other chars final =>
      have some_ : quote ≠ 0 := by
        rintro rfl
        cases esc
      have member : fmt.esc.contains quote = true := by
        simpa [Format.isEscape, some_] using esc
      have whole : State t els cs false 0 (quote :: (escaped quote val ++ quote :: rest)) s :=
        h.ahead (by simp)
      obtain ⟨s₁, state, eq⟩ := scan_cons (dataBody fmt) fails (0, last) whole some_
      rw [single] at state
      obtain ⟨s', keep', more, state, kept⟩ := quoted_scan fmt some_ other [] chars
        (some quote) fails (fun c => rfl) (fun _ eq => other (Option.some.inj eq)) final state
      refine ⟨s', some quote, _, keep', ?_, state, ?_⟩
      · have turn : dataBody fmt (0, last) s₁ quote = .next s₁ (quote, some quote) := by
          unfold dataBody
          simp only [ne_eq, not_true_eq_false, if_false, esc, if_true]
        rw [show quote :: (escaped quote val ++ [quote]) ++ rest =
          quote :: (escaped quote val ++ quote :: rest) by simp, eq, turn]
        exact more
      · rcases kept with kept | none
        · exact .inl ⟨kept, List.prefix_refl _⟩
        · exact .inr none

/-- The value of an option is read up to the end of the line. -/
theorem data_read (plain : Plain fmt) {val d before behind : List Byte} (written : Written fmt val d)
    (blank : Blank before) (blank' : Blank behind) (short : val.length < 2 ^ 16)
    (h : State t els [] false 0 (before ++ (d ++ (behind ++ 10 :: rest))) s) :
    ∃ s' cs' keep', data fmt s = (s', .ok val.length) ∧
      State t els cs' keep' val.length rest s' ∧ val <+: cs' := by
  have input := h.input
  obtain ⟨s₁, last₁, cs₁, eq₁, state, few⟩ :=
    blank_scan plain blank none (fun s e => (s, .error e)) (show [].length ≤ 1 from Nat.zero_le 1) h
  obtain ⟨s₂, last₂, cs₂, keep₂, eq₂, state, kept⟩ :=
    written_scan plain written last₁ (fun s e => (s, .error e)) few state
  obtain ⟨s₃, last₃, cs₃, eq₃, state, kept⟩ :=
    behind_scan plain blank' last₂ (fun s e => (s, .error e)) kept state
  obtain ⟨s₄, state, eq₄⟩ :=
    scan_cons (dataBody fmt) (fun s e => (s, .error e)) (0, last₃) state (by decide)
  rw [Nat.mod_eq_of_lt short] at state
  refine ⟨s₄, _, _, ?_, state, ?_⟩
  · have escape : fmt.isEscape 10 = false := by
      rw [Format.isEscape, (plain.space 10 rfl).2, Bool.and_false]
    have turn : dataBody fmt (0, last₃) s₄ 10 = .stop s₄ (.ok 10) := by
      unfold dataBody
      simp only [ne_eq, not_true_eq_false, if_false, escape, Bool.false_eq_true, if_true, ite_self]
    unfold data
    rw [input, eq₁, eq₂, eq₃, eq₄, turn]
    unfold Turn.resume
    dsimp only
    rw [if_neg (fun both => both.1 plain.oend), state.valid]
  · rcases kept with ⟨rfl, inside⟩ | none
    · exact inside.trans (List.prefix_append _ _)
    · rw [none]
      exact List.nil_prefix

/-- The value behind a name is read, and the name becomes an element of the path. -/
theorem assign_read (plain : Plain fmt) (err : Error) {name after_ val d behind : List Byte}
    (named : Named fmt t.opt name) (blank : Blank after_) (blank' : Blank behind)
    (written : Written fmt val d) (short : val.length < 2 ^ 16) (sep : t.path.sep = 46)
    (h : State t els (name ++ cs) true name.length (after_ ++ (d ++ (behind ++ 10 :: rest))) s) :
    ∃ s' cs' keep', s.assign fmt err =
        (s', .ok (some (if val = [] then .option else .optionData))) ∧
      State t (els ++ [name]) cs' keep' val.length rest s' ∧ val <+: cs' := by
  have named' : Named fmt s.opt name := by
    rw [h.after.opt]
    exact named
  obtain ⟨taken, s₂, n, cs₂, added, state⟩ := name_added named' h sep
  obtain ⟨q, m, inv, holds, keep⟩ := state.holds.invalidate
  have clear : State t (els ++ [name]) [] false 0 (after_ ++ (d ++ (behind ++ 10 :: rest)))
      { s₂.invalidate with valid := 0 } := by
    refine ⟨state.after.invalidate, ?_, ?_, rfl, state.input, state.granted⟩
    · simp only [Parser.invalidate, inv]
      exact holds
    · simp only [Parser.invalidate, inv]
      exact keep state.keep
  obtain ⟨s', cs', keep', read, result⟩ := data_read plain written blank blank' short clear
  refine ⟨s', cs', keep', ?_, result⟩
  unfold Parser.assign
  rw [taken]
  dsimp only
  rw [added]
  dsimp only
  rw [read]
  cases val with
  | nil => rfl
  | cons c val => rfl

/-- An option is read with its value. -/
theorem option_read (plain : Plain fmt) {g name before after_ val d behind : List Byte}
    (gap : Gap fmt g) (named : Named fmt t.opt name) (blank : Blank before) (blank' : Blank after_)
    (blank'' : Blank behind) (written : Written fmt val d) (short : val.length < 2 ^ 16)
    (sep : t.path.sep = 46) (h : State t els [] false 0
      (g ++ (name ++ (before ++ fmt.assign :: (after_ ++ (d ++ (behind ++ 10 :: rest)))))) s) :
    ∃ s' cs' keep', formatPre fmt s =
        (s', .ok (some (if val = [] then .option else .optionData))) ∧
      State t (els ++ [name]) cs' keep' val.length rest s' ∧ val <+: cs' := by
  obtain ⟨s₁, state, eq⟩ := name_gathers plain gap named blank plain.assign.1 h
  rw [List.append_assoc] at state
  obtain ⟨s', cs', keep', read, result⟩ := assign_read plain .badOperation named blank' blank'' written
    short sep (state.curr 11)
  refine ⟨s', cs', keep', ?_, result⟩
  have turn : preBody fmt () s₁ fmt.assign = .leave ({ s₁ with curr := 11 }.assign fmt .badOperation) := by
    unfold preBody
    rw [if_neg plain.assign.2.2.1, if_neg plain.assign.2.2.2, plain.ostart, if_neg plain.assign.1,
      if_pos rfl]
  rw [eq, turn, resume_leave]
  exact read

/-- A run hands on these calls on its way to a state. -/
def Delivers (next : Parser → Parser × Result) (s : Parser) (cs : List Call) (s' : Parser) : Prop :=
  ∀ fuel, calls next (cs.length + fuel) s = (calls next fuel s').map fun r => (cs ++ r.1, r.2)

namespace Delivers

variable {next : Parser → Parser × Result} {s' s'' : Parser} {calls₁ calls₂ : List Call} {e : Event}

theorem refl (s : Parser) : Delivers next s [] s := by
  intro fuel
  rw [List.length_nil, Nat.zero_add]
  cases calls next fuel s with
  | none => rfl
  | some r => rfl

theorem trans (h : Delivers next s calls₁ s') (h' : Delivers next s' calls₂ s'') :
    Delivers next s (calls₁ ++ calls₂) s'' := by
  intro fuel
  rw [List.length_append, Nat.add_assoc, h, h', Option.map_map]
  congr 1
  funext r
  simp

theorem step {s₁ s₂ : Parser} {n : Nat} (found : next s = (s₁, .ok (some e)))
    (left : s₁.left e = (s₂, .ok n)) : Delivers next s [s₁.call e] s₂.cycled := by
  intro fuel
  rw [List.length_singleton, Nat.add_comm, calls, found]
  dsimp only
  rw [left]
  rfl

end Delivers

/-- A call is the one for an entry. -/
structure Shows (c : Call) (e : Entry) : Prop where
  event : c.event = e.event
  val : c.val = e.val
  path : ∃ behind, Holds c.path e.els behind

/-- The option that was read is the one of an entry. -/
theorem shows_option {name val : List Byte} (state : State t (els ++ [name]) cs keep val.length rest s)
    (inside : val <+: cs) :
    Shows (s.call (if val = [] then .option else .optionData)) (optionEntry (els ++ [name]) val) := by
  have value : s.path.mem.read (s.path.off + s.path.len) s.valid = val := by
    rw [state.valid, state.holds.behind inside.length_le]
    exact (List.prefix_iff_eq_take.mp inside).symm
  unfold optionEntry
  by_cases none : val = []
  · rw [if_pos none, if_pos none]
    exact ⟨rfl, rfl, cs, state.holds⟩
  · rw [if_neg none, if_neg none]
    exact ⟨rfl, congrArg some value, cs, state.holds⟩

/-- A state between two elements, with a text to come. -/
structure Between (sect opt : Nat) (els : List (List Byte)) (text : List Byte) (s : Parser) : Prop where
  state : State s els [] false 0 text s
  sep : s.path.sep = 46
  sect : s.sect = sect
  opt : s.opt = opt

variable {sect opt : Nat} {text : List Byte}

/-- The state between elements goes on behind an element that was read. -/
theorem Between.onward {els' : List (List Byte)} {s₁ : Parser} {q : Path} (b : Between sect opt els text s)
    (h : State s els' cs keep v rest s₁) {els₂ : List (List Byte)} (holds : Holds q els₂ [])
    (fresh : q.keepPost = false) (sep : q.sep = s₁.path.sep) :
    Between sect opt els₂ rest (Parser.cycled { s₁ with path := q }) :=
  ⟨⟨.refl h.after.line, holds, fresh, rfl, h.input, h.granted⟩, sep.trans (h.after.sep.trans b.sep),
    h.after.sect.trans b.sect, h.after.opt.trans b.opt⟩

/-- Behind the end of an option or a section its name is gone. -/
theorem Between.closed {s₁ : Parser} {name : List Byte} {e : Event} (b : Between sect opt els text s)
    {els₂ : List (List Byte)} (h : State s (els₂ ++ [name]) cs keep v rest s₁)
    (ends : has e.flags Event.sectEnd.flags = true) :
    ∃ s₂ n, s₁.left e = (s₂, .ok n) ∧ Between sect opt els₂ rest s₂.cycled := by
  obtain ⟨q, eq, holds, fresh, sep⟩ := h.holds.del
  refine ⟨_, name.length, ?_, b.onward h holds fresh sep⟩
  simp only [Parser.left, ends, if_true, eq]

/-- Behind the name of a section it is still there. -/
theorem Between.opened {s₁ : Parser} (b : Between sect opt els text s) {els₂ : List (List Byte)}
    (h : State s els₂ cs false v rest s₁) :
    ∃ s₂ n, s₁.left .section_ = (s₂, .ok n) ∧ Between sect opt els₂ rest s₂.cycled := by
  obtain ⟨q, n, eq, holds, fresh⟩ := h.holds.invalidate
  have sep := Path.invalidate_sep s₁.path
  rw [eq] at sep
  refine ⟨_, n, ?_, b.onward h holds (fresh h.keep) sep⟩
  simp only [Parser.left, has, Event.flags, eq]
  rfl

/-- A text of a tree is read element by element. -/
theorem tree_read (plain : Plain fmt) {tree : Tree} (writes : Writes fmt tree text)
    (accepted : tree.Accepted fmt sect opt) {rest : List Byte} (b : Between sect opt els (text ++ rest) s) :
    ∃ s' cs g, Delivers (formatPre fmt) s cs s' ∧ Gap fmt g ∧ Between sect opt els (g ++ rest) s' ∧
      List.Forall₂ Shows cs (tree.entries els) := by
  induction writes generalizing els s rest with
  | nil g gap => exact ⟨s, [], g, .refl s, gap, b, .nil⟩
  | option name val tree g before after_ d behind t gap blank blank' blank'' written _ ih =>
      obtain ⟨named, short, accepted⟩ := accepted
      have ahead : g ++ (name ++ (before ++ fmt.assign :: (after_ ++ (d ++ (behind ++ 10 :: t))))) ++
          rest = g ++ (name ++ (before ++ fmt.assign :: (after_ ++ (d ++ (behind ++ 10 :: (t ++ rest)))))) := by
        simp
      obtain ⟨s₁, cs₁, keep₁, found, state, inside⟩ := option_read plain gap (b.opt.symm ▸ named) blank
        blank' blank'' written short b.sep (b.state.ahead ahead)
      have kind : has (if val = [] then Event.option else .optionData).flags
          Event.sectEnd.flags = true := by
        split <;> rfl
      obtain ⟨s₂, n, left, b₂⟩ := b.closed state kind
      obtain ⟨s', cs, g', run, gap', b', shows⟩ := ih accepted b₂
      exact ⟨s', _, g', (Delivers.step found left).trans run, gap', b',
        .cons (shows_option state inside) shows⟩
  | section_ name inner tree g before i t gap blank _ _ ihInner ih =>
      obtain ⟨named, acceptedInner, accepted⟩ := accepted
      have ahead : g ++ (name ++ (before ++ fmt.sstart :: (i ++ fmt.send :: t))) ++ rest =
          g ++ (name ++ (before ++ fmt.sstart :: (i ++ fmt.send :: (t ++ rest)))) := by
        simp
      obtain ⟨s₁, cs₁, v₁, found, state⟩ := section_read plain gap (b.sect.symm ▸ named) blank b.sep
        (b.state.ahead ahead)
      obtain ⟨s₂, n, left, b₂⟩ := b.opened state
      obtain ⟨s₃, cs₃, g₃, run₃, gap₃, b₃, shows₃⟩ := ihInner acceptedInner b₂
      obtain ⟨s₄, cs₄, found₄, state₄⟩ := end_read plain gap₃ b₃.state
      obtain ⟨s₅, n₅, left₅, b₅⟩ := b₃.closed (e := .sectEnd) state₄ rfl
      obtain ⟨s', cs, g', run, gap', b', shows⟩ := ih accepted b₅
      refine ⟨s', _, g', (Delivers.step found left).trans
        (run₃.trans ((Delivers.step found₄ left₅).trans run)), gap', b', ?_⟩
      refine .cons ⟨rfl, rfl, cs₁, state.holds⟩ (List.rel_append shows₃ (.cons ⟨rfl, rfl, cs₄, ?_⟩ shows))
      exact state₄.holds

/-- A run that hands on some calls and then comes to an end of the text. -/
theorem calls_delivered (type : FormatType) {text : List Byte} {fin : Error}
    {grants : Nat → Option (Mem Byte)} {cs : List Call} {s' s'' : Parser}
    (run : Delivers (type.next fmt) (.start text fin sect opt grants) cs s')
    (ended : type.next fmt s' = (s'', .ok none)) :
    calls (type.next fmt) (2 * text.length + 1) (.start text fin sect opt grants) =
      some (cs, s'', 0) := by
  have all : calls (type.next fmt) (cs.length + 1) (.start text fin sect opt grants) =
      some (cs, s'', 0) := by
    rw [run 1, calls, ended]
    simp
  obtain ⟨r, whole⟩ := calls_end type fmt (2 * text.length + 1)
    (ready_start text fin sect opt grants) (by simp [remaining, Parser.start, Event.flags])
  have same := (calls_mono all (Nat.le_add_right _ (2 * text.length + 1))).symm.trans
    (calls_mono whole (Nat.le_add_left _ (cs.length + 1)))
  rw [Option.some.inj same]
  exact whole

/-- The elements of a tree are handed on up to the end of its text. -/
theorem text_delivers (plain : Plain fmt) {tree : Tree} (writes : Writes fmt tree text)
    (accepted : tree.Accepted fmt sect opt) (fin : Error) {grants : Nat → Option (Mem Byte)}
    (granted : ∀ n, grants n ≠ none) :
    ∃ cs s' s'', Delivers (formatPre fmt) (.start text fin sect opt grants) cs s' ∧
      formatPre fmt s' = (s'', .ok none) ∧ List.Forall₂ Shows cs (tree.entries []) := by
  have b : Between sect opt [] (text ++ []) (Parser.start text fin sect opt grants) :=
    ⟨⟨.refl Nat.one_ne_zero, .init 46 0, rfl, rfl, (List.append_nil text).symm, granted⟩, rfl, rfl, rfl⟩
  obtain ⟨s', cs, g, run, gap, b', shows⟩ := tree_read plain writes accepted b
  obtain ⟨s'', ended, state⟩ := nextvis_end gap (b'.state.ahead (List.append_nil g))
  refine ⟨cs, s', s'', run, ?_, shows⟩
  have none : s''.path.len = 0 := state.holds.len
  unfold formatPre
  rw [ended]
  dsimp only
  rw [if_pos none]

end Mpt.Parse
