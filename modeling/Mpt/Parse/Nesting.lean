import Mpt.Parse.Elements

/-! # What the parsers do to source and path

A parser takes characters from the source in their order, and counts the lines.  Until it
returns a named element, the elements of the path stay as they are, and the valid bytes
lie behind them.
-/

namespace Mpt.Parse

open Config (Path)
open Config.Path (Holds)

/-- A state that is reached by reading on: what was taken from the source is in front of the
    rest, and its line ends are counted. -/
structure After (t s : Parser) : Prop where
  read : ∃ l, t.input = l ++ s.input ∧ s.line = t.line + l.count 10
  line : s.line ≠ 0
  fin : s.fin = t.fin
  sect : s.sect = t.sect
  opt : s.opt = t.opt
  prev : s.prev = t.prev
  sep : s.path.sep = t.path.sep

/-- The path has these elements, and the valid bytes are among those behind them. -/
def Gathers (els : List (List Byte)) (s : Parser) : Prop :=
  ∃ cs, Holds s.path els cs ∧ s.valid ≤ cs.length

/-- An element was found: a name is the new last one of the path, and the bytes of a value
    lie behind it. -/
def Found (els : List (List Byte)) (s : Parser) : Result → Prop
  | .ok (some .section_) => ∃ n cs, Holds s.path (els ++ [n]) cs
  | .ok (some .sectEnd) => Gathers els s
  | .ok (some .data) => Gathers els s
  | .ok (some _) => ∃ n, Gathers (els ++ [n]) s
  | _ => True

/-- The current operation is the one of the element that was found, but for flags that say
    more about it. -/
def Noted (s : Parser) : Result → Prop
  | .ok (some e) => s.curr % 4 = e.flags % 4 ∧ 0 < s.curr
  | _ => True

/-- What a parser leaves of a state. -/
structure Finds (els : List (List Byte)) (t s : Parser) (r : Result) : Prop where
  after : After t s
  found : Found els s r
  noted : Noted s r

/-- A state inside of an element, with its current operation. -/
structure Reads (els : List (List Byte)) (k : Nat) (t s : Parser) : Prop where
  after : After t s
  gathers : Gathers els s
  curr : s.curr = k

variable {t s s' : Parser} {els : List (List Byte)} {c : Byte} {k : Nat} {r : Result} {fmt : Format}

theorem begun_eq (line : s.line ≠ 0) : s.begun = s := by
  simp [Parser.begun, line]

namespace After

theorem refl (line : s.line ≠ 0) : After s s :=
  ⟨⟨[], rfl, by simp⟩, line, rfl, rfl, rfl, rfl, rfl⟩

theorem trans (h : After t s) (h' : After s s') : After t s' := by
  obtain ⟨l, eq, line⟩ := h.read
  obtain ⟨l', eq', line'⟩ := h'.read
  refine ⟨⟨l ++ l', ?_, ?_⟩, h'.line, h'.fin.trans h.fin, h'.sect.trans h.sect, h'.opt.trans h.opt,
    h'.prev.trans h.prev, h'.sep.trans h.sep⟩
  · rw [eq, eq', List.append_assoc]
  · rw [line', line, List.count_append, Nat.add_assoc]

theorem length (h : After t s) : s.input.length ≤ t.input.length := by
  obtain ⟨l, eq, _⟩ := h.read
  rw [eq, List.length_append]
  omega

theorem curr (h : After t s) (n : Nat) : After t { s with curr := n } :=
  ⟨h.read, h.line, h.fin, h.sect, h.opt, h.prev, h.sep⟩

theorem passed (h : After t s) {rest : List Byte} (left : s.input = c :: rest) :
    After t (s.passed c rest) := by
  refine h.trans ?_
  unfold Parser.passed
  rw [begun_eq h.line]
  refine ⟨⟨[c], by rw [left]; rfl, ?_⟩, ?_, rfl, rfl, rfl, rfl, rfl⟩
  · by_cases eq : c = 10 <;> simp [eq]
  · have := h.line
    simp only
    omega

theorem addchar (h : After t s) (c : Byte) : After t (s.addchar c).1 := by
  refine ⟨h.read, h.line, h.fin, h.sect, h.opt, h.prev, ?_⟩
  exact (Path.addchar_sep _ _ _).trans h.sep

theorem delchar (h : After t s) : After t s.delchar :=
  ⟨h.read, h.line, h.fin, h.sect, h.opt, h.prev, (Path.delchar_sep _).trans h.sep⟩

theorem keep (h : After t s) : After t s.keep := by
  have same := Path.valid_sep s.path
  unfold Parser.keep
  split
  · next eq =>
    rw [eq] at same
    exact ⟨h.read, h.line, h.fin, h.sect, h.opt, h.prev, same.trans h.sep⟩
  · next eq =>
    rw [eq] at same
    exact ⟨h.read, h.line, h.fin, h.sect, h.opt, h.prev, same.trans h.sep⟩

theorem invalidate (h : After t s) : After t { s.invalidate with valid := 0 } :=
  ⟨h.read, h.line, h.fin, h.sect, h.opt, h.prev, (Path.invalidate_sep _).trans h.sep⟩

theorem addPath (h : After t s) (n : Nat) : After t (s.addPath n).1 :=
  ⟨h.read, h.line, h.fin, h.sect, h.opt, h.prev, (Path.add_sep _ _ _).trans h.sep⟩

theorem getchar (h : After t s) : After t s.getchar.1 := by
  unfold Parser.getchar
  cases left : s.input with
  | nil =>
      rw [begun_eq h.line]
      exact h
  | cons c rest =>
      have next := h.passed left
      have more := next.addchar c
      simp only
      split
      · exact next
      · split
        · next eq =>
          rw [eq] at more
          exact more
        · next eq =>
          rw [eq] at more
          exact more

theorem endline (h : After t s) : After t s.endline.1 := by
  unfold Parser.endline
  have whole : s.input = s.input.takeWhile (· ≠ 10) ++ s.input.dropWhile (· ≠ 10) :=
    List.takeWhile_append_dropWhile.symm
  have none : (s.input.takeWhile (· ≠ 10)).count 10 = 0 := by
    apply List.count_eq_zero.mpr
    intro mem
    have := List.mem_takeWhile_imp mem
    simp at this
  refine h.trans ?_
  rw [begun_eq h.line]
  split
  · next eq =>
    rw [eq, List.append_nil] at whole
    have count : s.input.count 10 = 0 := by
      rw [whole]
      exact none
    exact ⟨⟨s.input, (List.append_nil _).symm, by rw [count]; rfl⟩, h.line, rfl, rfl, rfl, rfl, rfl⟩
  · next c rest eq =>
    rw [eq] at whole
    unfold Parser.passed
    rw [begun_eq h.line]
    refine ⟨⟨s.input.takeWhile (· ≠ 10) ++ [c], ?_, ?_⟩, ?_, rfl, rfl, rfl, rfl, rfl⟩
    · rw [List.append_assoc]
      exact whole
    · rw [List.count_append, none]
      by_cases same : c = 10 <;> simp [same]
    · have := h.line
      simp only
      omega

theorem nextvis (h : After t s) (com : List Byte) :
    After t (s.nextvis com).1 ∧
      ∀ c, (s.nextvis com).2 = .ok c → (s.nextvis com).1.input.length < s.input.length := by
  generalize size : s.input.length = n
  induction n using Nat.strong_induction_on generalizing s with
  | _ n ih =>
    cases left : s.input with
    | nil =>
        rw [Parser.nextvis_nil com left, begun_eq h.line]
        exact ⟨h, fun c ok => by cases ok⟩
    | cons c rest =>
        have passed := h.passed left
        have fewer : (s.passed c rest).input.length < n := by
          rw [← size, left]
          exact Nat.lt_succ_self _
        rw [Parser.nextvis_cons com left]
        split
        · exact ⟨passed, fun _ _ => fewer⟩
        · split
          · obtain ⟨after, less⟩ := ih _ fewer passed rfl
            exact ⟨after, fun c ok => Nat.lt_trans (less c ok) fewer⟩
          · split
            · have ended := passed.endline
              have none := (After.refl passed.line).endline.length
              split
              · next eq =>
                rw [eq] at ended
                exact ⟨ended, fun c ok => by cases ok⟩
              · next eq =>
                rw [eq] at ended none
                obtain ⟨after, less⟩ := ih _ (Nat.lt_of_le_of_lt none fewer) ended rfl
                exact ⟨after, fun c ok => Nat.lt_trans (less c ok) (Nat.lt_of_le_of_lt none fewer)⟩
            · exact ⟨passed, fun _ _ => fewer⟩

end After

/-- A line is skipped in the source alone. -/
theorem endline_source (s : Parser) :
    ∃ input line, s.endline.1 = { s with input := input, line := line } := by
  unfold Parser.endline
  split
  · exact ⟨_, _, rfl⟩
  · exact ⟨_, _, rfl⟩

/-- The next character is looked for in the source alone. -/
theorem nextvis_source (com : List Byte) (s : Parser) :
    ∃ input line, (s.nextvis com).1 = { s with input := input, line := line } := by
  generalize size : s.input.length = n
  induction n using Nat.strong_induction_on generalizing s with
  | _ n ih =>
    cases left : s.input with
    | nil =>
        rw [Parser.nextvis_nil com left]
        exact ⟨_, _, rfl⟩
    | cons c rest =>
        have fewer : (s.passed c rest).input.length < n := by
          rw [← size, left]
          exact Nat.lt_succ_self _
        rw [Parser.nextvis_cons com left]
        split
        · exact ⟨_, _, rfl⟩
        · split
          · obtain ⟨input, line, eq⟩ := ih _ fewer _ rfl
            exact ⟨input, line, eq⟩
          · split
            · obtain ⟨input, line, eq⟩ := endline_source (s.passed c rest)
              have none := congrArg List.length (Parser.endline_input (s.passed c rest))
              have shorter := List.length_dropWhile_le (fun x : Byte => decide (x ≠ 10))
                (s.passed c rest).input
              rw [List.length_tail] at none
              split
              · next end_ =>
                rw [end_] at eq
                exact ⟨input, line, eq⟩
              · next s' _ end_ =>
                rw [end_] at eq none
                obtain ⟨input', line', eq'⟩ := ih _ (by simp only at none; omega) s' rfl
                refine ⟨input', line', eq'.trans ?_⟩
                simp only at eq
                rw [eq]
                rfl
            · exact ⟨_, _, rfl⟩

/-- Whatever was gathered, its bytes are valid when they are kept. -/
theorem gathers_keep {cs : List Byte} (h : Holds s.path els cs) : Gathers els s.keep := by
  refine ⟨cs, ?_, ?_⟩
  · simp only [Parser.keep, h.valid]
    exact h.keeping _
  · simp only [Parser.keep, h.valid]
    exact Nat.mod_le _ _

theorem keep_curr (s : Parser) : s.keep.curr = s.curr ∧ s.keep.input = s.input := by
  unfold Parser.keep
  split <;> exact ⟨rfl, rfl⟩

namespace Gathers

theorem addchar (h : Gathers els s) (c : Byte) : Gathers els (s.addchar c).1 := by
  obtain ⟨cs, holds, valid⟩ := h
  rcases holds.addchar c (s.grants 0) with ⟨q, n, eq, holds, _⟩ | ⟨e, eq, _⟩
  · refine ⟨_, ?_, Nat.le_trans valid (Path.length_gather cs s.path.keepPost c).1⟩
    simp only [Parser.addchar, eq]
    exact holds
  · refine ⟨cs, ?_, valid⟩
    simp only [Parser.addchar, eq]
    exact holds

theorem keep (h : Gathers els s) : Gathers els s.keep := by
  obtain ⟨cs, holds, _⟩ := h
  exact gathers_keep holds

/-- One character less, of which the rest is valid. -/
theorem delchar (h : Gathers els s) : Gathers els s.delchar.keep := by
  obtain ⟨cs, holds, _⟩ := h
  obtain ⟨q, r, eq, holds, _⟩ := holds.delchar
  have less : Holds s.delchar.path els cs.dropLast := by
    simp only [Parser.delchar, eq]
    exact holds
  exact gathers_keep less

/-- Two characters less and another one. -/
theorem delchars (h : Gathers els s) (c : Byte) :
    Gathers els (s.delchar.delchar.addchar c).1.keep := by
  obtain ⟨cs, holds, _⟩ := h
  obtain ⟨q, r, eq, holds, _⟩ := holds.delchar
  obtain ⟨q', r', eq', holds, _⟩ := holds.delchar
  have gathers : Gathers els { s.delchar.delchar with valid := 0 } := by
    refine ⟨cs.dropLast.dropLast, ?_, Nat.zero_le _⟩
    simp only [Parser.delchar, eq, eq']
    exact holds
  obtain ⟨cs', holds, _⟩ := gathers.addchar c
  exact gathers_keep (s := (s.delchar.delchar.addchar c).1) holds

/-- The path is all that counts. -/
theorem source (h : Gathers els s) {input : List Byte} {line : Nat}
    (eq : s' = { s with input := input, line := line }) : Gathers els s' := by
  rw [eq]
  exact h

theorem getchar (h : Gathers els s) : Gathers els s.getchar.1 := by
  unfold Parser.getchar
  split
  · exact h
  · next c rest _ =>
    have more := addchar (s := s.passed c rest) h c
    simp only
    split
    · exact h
    · split
      · next eq =>
        rw [eq] at more
        exact more
      · next eq =>
        rw [eq] at more
        exact more

/-- The bytes behind the path are those of the name. -/
theorem named (h : Gathers els s) (n : Nat) (le : n ≤ s.valid) :
    ∃ cs, Holds s.path els cs ∧ n ≤ cs.length := by
  obtain ⟨cs, holds, valid⟩ := h
  exact ⟨cs, holds, Nat.le_trans le valid⟩

end Gathers

theorem getchar_curr (s : Parser) : s.getchar.1.curr = s.curr := by
  unfold Parser.getchar
  split
  · rfl
  · simp only
    split
    · rfl
    · split
      · next eq => exact congrArg (·.1.curr) eq.symm
      · next eq => exact congrArg (·.1.curr) eq.symm

namespace Reads

theorem start (h : Gathers els s) (line : s.line ≠ 0) : Reads els s.curr s s :=
  ⟨.refl line, h, rfl⟩

theorem set (h : Reads els k t s) (n : Nat) : Reads els n t { s with curr := n } :=
  ⟨h.after.curr n, h.gathers, rfl⟩

theorem addchar (h : Reads els k t s) (c : Byte) : Reads els k t (s.addchar c).1 :=
  ⟨h.after.addchar c, h.gathers.addchar c, h.curr⟩

theorem keep (h : Reads els k t s) : Reads els k t s.keep :=
  ⟨h.after.keep, h.gathers.keep, (keep_curr s).1.trans h.curr⟩

theorem delchar (h : Reads els k t s) : Reads els k t s.delchar.keep :=
  ⟨h.after.delchar.keep, h.gathers.delchar, (keep_curr _).1.trans h.curr⟩

theorem delchars (h : Reads els k t s) (c : Byte) :
    Reads els k t (s.delchar.delchar.addchar c).1.keep :=
  ⟨(h.after.delchar.delchar.addchar c).keep, h.gathers.delchars c, (keep_curr _).1.trans h.curr⟩

theorem endline (h : Reads els k t s) : Reads els k t s.endline.1 := by
  obtain ⟨input, line, eq⟩ := endline_source s
  refine ⟨h.after.endline, h.gathers.source eq, ?_⟩
  rw [eq]
  exact h.curr

theorem nextvis (h : Reads els k t s) (com : List Byte) : Reads els k t (s.nextvis com).1 := by
  obtain ⟨input, line, eq⟩ := nextvis_source com s
  refine ⟨(h.after.nextvis com).1, h.gathers.source eq, ?_⟩
  rw [eq]
  exact h.curr

theorem getchar (h : Reads els k t s) : Reads els k t s.getchar.1 :=
  ⟨h.after.getchar, h.gathers.getchar, (getchar_curr s).trans h.curr⟩

end Reads

/-- What a turn of a loop leaves, if it ends there and if it goes on. -/
def Turn.Ends {σ ρ : Type} (Q : Parser → ρ → Prop) (I : Parser → Prop) : Turn σ ρ → Prop
  | .stop s r => Q s r
  | .next s _ => I s

/-- A loop keeps up what every turn of it does. -/
theorem reads_scan {σ ρ : Type} (body : σ → Parser → Byte → Turn σ ρ)
    (fails : Parser → Error → Parser × ρ) (Q : Parser → ρ → Prop)
    (fail : ∀ s e, Reads els k t s → Q (fails s e).1 (fails s e).2)
    (turn : ∀ x s c, Reads els k t s →
      (body x s c).Ends Q fun s' => Reads els k t s' ∧ s'.input = s.input)
    (x : σ) (h : Reads els k t s) :
    Q (scan body fails s.input x s).1 (scan body fails s.input x s).2 := by
  generalize eq : s.input = input
  induction input generalizing x s with
  | nil =>
      have same : { s.begun with input := [] } = s := by
        rw [begun_eq h.after.line, ← eq]
      rw [scan, same]
      exact fail s s.fin h
  | cons c rest ih =>
      have same : { s with input := c :: rest } = s := by
        rw [← eq]
      have next := h.getchar
      have left : s.getchar.1.input = rest := by
        unfold Parser.getchar
        rw [eq]
        simp only
        split
        · rfl
        · split
          · next eq => exact congrArg (·.1.input) eq.symm
          · next eq => exact congrArg (·.1.input) eq.symm
      rw [scan, same]
      split
      · next s' e got =>
        rw [got] at next
        exact fail s' e next
      · next s' c' got =>
        rw [got] at next left
        have ended := turn x s' c' next
        split
        · next stopped =>
          rw [stopped] at ended
          exact ended
        · next s'' x' going =>
          rw [going] at ended
          exact ih x' ended.1 (ended.2.trans left)

theorem reads_scanFrom {σ ρ : Type} (body : σ → Parser → Byte → Turn σ ρ)
    (fails : Parser → Error → Parser × ρ) (Q : Parser → ρ → Prop)
    (fail : ∀ s e, Reads els k t s → Q (fails s e).1 (fails s e).2)
    (turn : ∀ x s c, Reads els k t s →
      (body x s c).Ends Q fun s' => Reads els k t s' ∧ s'.input = s.input)
    (c : Byte) (x : σ) (h : Reads els k t s) :
    Q (scanFrom body fails c x s).1 (scanFrom body fails c x s).2 := by
  have ended := turn x s c h
  unfold scanFrom
  split
  · next stopped =>
    rw [stopped] at ended
    exact ended
  · next going =>
    rw [going] at ended
    exact reads_scan body fails Q fail turn _ ended.1

/-- A value gathers behind the path. -/
theorem reads_data (h : Reads els k t s) (fmt : Format) :
    After t (data fmt s).1 ∧ Gathers els (data fmt s).1 ∧
      ∀ n, (data fmt s).2 = .ok n → (data fmt s).1.curr = k := by
  have turn (x : Byte × Option Byte) (s : Parser) (c : Byte) (h : Reads els k t s) :
      (dataBody fmt x s c).Ends (fun s _ => Reads els k t s)
        fun s' => Reads els k t s' ∧ s'.input = s.input := by
    unfold dataBody
    dsimp only
    split
    · split
      · split
        · exact ⟨h.delchar, (keep_curr _).2⟩
        · exact ⟨h.delchars c, (keep_curr _).2⟩
      · exact ⟨h.keep, (keep_curr _).2⟩
    · split
      · exact ⟨h, rfl⟩
      · split
        · exact h
        · split
          · exact h
          · split
            · exact h.endline
            · split
              · exact ⟨h.keep, (keep_curr _).2⟩
              · exact ⟨h, rfl⟩
  have ended := reads_scan (dataBody fmt) (fun s e => (s, .error e)) (fun s _ => Reads els k t s)
    (fun s e h => h) turn (0, none) h
  unfold data
  dsimp only
  split
  · exact ⟨ended.after.curr 4, ended.gathers, fun n ok => by cases ok⟩
  · exact ⟨ended.after, ended.gathers, fun n _ => ended.curr⟩

theorem word_bytes {cs : List Byte} (h : Holds s.path els cs) {n : Nat} (le : n ≤ cs.length) :
    s.word n = .null n ∧ n = 0 ∨ s.word n = .bytes (cs.take n) := by
  unfold Parser.word
  cases base : s.path.base with
  | null =>
      obtain ⟨_, rfl, _⟩ := h.null base
      exact .inl ⟨rfl, by simpa using le⟩
  | text m => exact .inr (by rw [h.behind le])
  | array b => exact .inr (by rw [h.behind le])

/-- The valid bytes become an element of the path, if they can. -/
theorem gathers_addPath (h : Gathers els s) :
    (∃ e, (s.addPath s.valid).2 = .error e) ∨
      (s.addPath s.valid).2 = .ok 0 ∧
        ∃ n cs, Holds (s.addPath s.valid).1.path (els ++ [n]) cs := by
  obtain ⟨cs, holds, valid⟩ := h
  rcases holds.add valid (s.grants 0) with ⟨q, eq, holds, _⟩ | ⟨e, eq, _⟩
  · refine .inr ⟨by simp only [Parser.addPath, eq], cs.take s.valid, cs.drop (s.valid + 1), ?_⟩
    simp only [Parser.addPath, eq]
    exact holds
  · exact .inl ⟨e, by simp only [Parser.addPath, eq]⟩

theorem finds_openSection (h : Reads els k t s) (noted : k % 4 = 1) :
    Finds els t s.openSection.1 s.openSection.2 := by
  unfold Parser.openSection
  split
  · exact ⟨h.after, trivial, trivial⟩
  · have after := h.after.addPath s.valid
    have added := gathers_addPath h.gathers
    have curr : (s.addPath s.valid).1.curr = k := h.curr
    split
    · next eq =>
      rw [eq] at after
      exact ⟨after, trivial, trivial⟩
    · next eq =>
      rw [eq] at after added curr
      rcases added with ⟨e, bad⟩ | ⟨_, n, cs, holds⟩
      · cases bad
      · exact ⟨after, ⟨n, cs, holds⟩, by rw [Noted, curr]; exact ⟨noted, by omega⟩⟩

theorem finds_assign (h : Reads els k t s) (noted : k % 4 = 3) (fmt : Format) (err : Error) :
    Finds els t (s.assign fmt err).1 (s.assign fmt err).2 := by
  unfold Parser.assign
  split
  · exact ⟨h.after, trivial, trivial⟩
  · have after := h.after.addPath s.valid
    have added := gathers_addPath h.gathers
    have curr : (s.addPath s.valid).1.curr = k := h.curr
    split
    · next eq =>
      rw [eq] at after
      exact ⟨after, trivial, trivial⟩
    · next s' _ eq =>
      rw [eq] at after added curr
      rcases added with ⟨e, bad⟩ | ⟨_, n, cs, holds⟩
      · cases bad
      · obtain ⟨q, m, inv, holds, _⟩ := holds.invalidate
        have reads : Reads (els ++ [n]) k t { s'.invalidate with valid := 0 } := by
          refine ⟨after.invalidate, ⟨[], ?_, Nat.le_refl _⟩, curr⟩
          simp only [Parser.invalidate, inv]
          exact holds
        obtain ⟨after, gathers, same⟩ := reads_data reads fmt
        split
        · next eq =>
          rw [eq] at after
          exact ⟨after, trivial, trivial⟩
        · next eq =>
          rw [eq] at after gathers same
          exact ⟨after, ⟨n, gathers⟩, by rw [Noted, same _ rfl]; exact ⟨noted, by omega⟩⟩
        · next eq =>
          rw [eq] at after gathers same
          exact ⟨after, ⟨n, gathers⟩, by rw [Noted, same _ rfl]; exact ⟨noted, by omega⟩⟩

theorem finds_nameless (h : Reads els k t s) : Finds els t s.nameless.1 s.nameless.2 := by
  refine ⟨h.after.curr 4, ?_, ?_⟩
  · unfold Parser.nameless
    dsimp only
    split
    · exact h.gathers
    · trivial
  · unfold Parser.nameless
    dsimp only
    split
    · exact ⟨rfl, Nat.succ_pos _⟩
    · trivial

theorem option_turn (fmt : Format) (x : Unit) (h : Reads els 11 t s) :
    (optionBody fmt x s c).Ends (Finds els t) fun s' => Reads els 11 t s' ∧ s'.input = s.input := by
  unfold optionBody
  split
  · split
    · exact finds_assign h rfl fmt _
    · split
      · split
        · exact ⟨h.after, trivial, trivial⟩
        · exact finds_nameless h
      · exact ⟨h, rfl⟩
  · split
    · exact finds_assign h rfl fmt _
    · split
      · exact finds_nameless h
      · split
        · split
          · exact ⟨h.after, trivial, trivial⟩
          · exact finds_nameless h.endline
        · exact ⟨h.keep, (keep_curr _).2⟩

/-- An element that is found takes something from the source. -/
def Consumes (s s' : Parser) (r : Result) : Prop :=
  ∀ e, r = .ok (some e) → s'.input.length < s.input.length

/-- `mpt_parse_option` -/
theorem finds_option (h : Reads els k t s) (fmt : Format) :
    Finds els t (option fmt s).1 (option fmt s).2 ∧ Consumes s (option fmt s).1 (option fmt s).2 := by
  have next := h.nextvis fmt.com
  have less := (h.after.nextvis fmt.com).2
  unfold option
  split
  · next eq =>
    rw [eq] at next
    refine ⟨⟨?_, ?_, ?_⟩, ?_⟩ <;> dsimp only <;> repeat' split
    all_goals first
      | exact next.after.curr _
      | trivial
      | exact fun e ok => by cases ok
  · next s' c eq =>
    rw [eq] at next less
    have shorter : s'.input.length < s.input.length := less c rfl
    split
    · exact ⟨⟨next.after.curr 11, trivial, trivial⟩, fun e ok => by cases ok⟩
    · have added := (next.set 11).addchar c
      split
      · next eq =>
        rw [eq] at added
        exact ⟨⟨added.after, trivial, trivial⟩, fun e ok => by cases ok⟩
      · next s₁ _ eq =>
        have same : s₁.input = s'.input := congrArg (·.1.input) eq.symm
        rw [eq] at added
        have finds {t' : Parser} (reads : Reads els 11 t' s₁) := reads_scanFrom
          (optionBody fmt) (fun s e => (s, .error (broken e))) (Finds els t')
          (fun s e h => ⟨h.after, trivial, trivial⟩) (fun x s c h => option_turn fmt x h) c () reads
        refine ⟨finds added, fun e ok => ?_⟩
        have less := (finds ⟨.refl added.after.line, added.gathers, added.curr⟩).after.length
        rw [same] at less
        exact Nat.lt_of_le_of_lt less shorter

theorem finds_preEnd (h : Reads els k t s) (fmt : Format) (curr : Option Byte) :
    Finds els t (preEnd fmt s curr).1 (preEnd fmt s curr).2 := by
  unfold preEnd
  split
  · exact finds_openSection (h.set 9) rfl
  · split
    · split
      · exact ⟨h.after.curr 4, trivial, trivial⟩
      · exact ⟨h.after.curr 4, h.gathers, rfl, Nat.succ_pos _⟩
    · exact ⟨h.after.curr 8, trivial, trivial⟩

theorem pre_turn (fmt : Format) (x : Unit) (c : Byte) (h : Reads els 8 t s) :
    (preBody fmt x s c).Ends (Finds els t) fun s' => Reads els 8 t s' ∧ s'.input = s.input := by
  unfold preBody
  split
  · exact ⟨h.after.curr 2, h.gathers, rfl, Nat.succ_pos _⟩
  split
  · exact finds_preEnd h fmt _
  split
  · exact (finds_option h fmt).1
  split
  · exact finds_assign (h.set 11) rfl fmt _
  split
  · exact finds_preEnd h fmt _
  split
  · exact finds_preEnd h.endline fmt _
  split
  · exact ⟨(h.set 8).keep, (keep_curr _).2⟩
  split
  · have next := (h.set 8).nextvis fmt.com
    split
    next s' curr eq =>
      rw [eq] at next
      dsimp only
      split
      · next s₁ _ eq =>
        have added : Reads els 8 t s₁ := by
          rw [show s₁ = _ from congrArg Prod.fst eq.symm]
          exact next.addchar _
        exact ⟨added.after, trivial, trivial⟩
      · next s₁ _ eq =>
        have added : Reads els 8 t s₁ := by
          rw [show s₁ = _ from congrArg Prod.fst eq.symm]
          exact next.addchar _
        exact finds_preEnd added fmt _
  · exact ⟨h.set 8, rfl⟩

/-- `mpt_parse_format_pre` -/
theorem finds_formatPre (h : Reads els k t s) (fmt : Format) :
    Finds els t (formatPre fmt s).1 (formatPre fmt s).2 ∧
      Consumes s (formatPre fmt s).1 (formatPre fmt s).2 := by
  have next := h.nextvis fmt.com
  have less := (h.after.nextvis fmt.com).2
  unfold formatPre
  split
  · next eq =>
    rw [eq] at next
    dsimp only
    split
    · exact ⟨⟨next.after, trivial, trivial⟩, fun e ok => by cases ok⟩
    · exact ⟨⟨next.after, trivial, trivial⟩, fun e ok => by cases ok⟩
  · next s' c eq =>
    rw [eq] at next less
    have shorter : s'.input.length < s.input.length := less c rfl
    split
    · have finds {t' : Parser} (reads : Reads els k t' s') := finds_openSection (reads.set 1) rfl
      refine ⟨finds next, fun e ok => ?_⟩
      exact Nat.lt_of_le_of_lt (finds ⟨.refl next.after.line, next.gathers, next.curr⟩).after.length
        shorter
    · have added := (next.set 8).addchar c
      split
      · next eq =>
        rw [eq] at added
        exact ⟨⟨added.after, trivial, trivial⟩, fun e ok => by cases ok⟩
      · next s₁ _ eq =>
        have same : s₁.input = s'.input := congrArg (·.1.input) eq.symm
        rw [eq] at added
        have finds {t' : Parser} (reads : Reads els 8 t' s₁) := reads_scanFrom
          (preBody fmt) (fun s _ => preEnd fmt s none) (Finds els t')
          (fun s e h => finds_preEnd h fmt none) (fun x s c h => pre_turn fmt x c h) c () reads
        refine ⟨finds added, fun e ok => ?_⟩
        have less := (finds ⟨.refl added.after.line, added.gathers, added.curr⟩).after.length
        rw [same] at less
        exact Nat.lt_of_le_of_lt less shorter

theorem finds_encName (h : Reads els 9 t s) : Finds els t (encName s).1 (encName s).2 := by
  have opened := finds_openSection h rfl
  unfold encName
  split
  · next eq =>
    rw [eq] at opened
    exact ⟨opened.after, trivial, trivial⟩
  · next r eq =>
    rw [eq] at opened
    refine ⟨⟨opened.after.read, opened.after.line, opened.after.fin, opened.after.sect,
      opened.after.opt, opened.after.prev, opened.after.sep⟩, ?_, opened.noted⟩
    have only : r = some .section_ ∨ r = none := by
      unfold Parser.openSection at eq
      split at eq
      · cases (Prod.mk.inj eq).2
      · split at eq
        · cases (Prod.mk.inj eq).2
        · cases (Prod.mk.inj eq).2
          exact .inl rfl
    rcases only with rfl | rfl
    · exact opened.found
    · trivial

theorem enc_turn (fmt : Format) (x : Unit) (c : Byte) (h : Reads els 9 t s) :
    (encBody fmt x s c).Ends (Finds els t) fun s' => Reads els 9 t s' ∧ s'.input = s.input := by
  unfold encBody
  split
  · exact ⟨h.after, trivial, trivial⟩
  split
  · exact finds_encName h
  split
  · exact finds_encName h.endline
  · exact ⟨h.keep, (keep_curr _).2⟩

theorem finds_encStart (h : Reads els k t s) (fmt : Format) (c : Byte) :
    Finds els t (encStart fmt s c).1 (encStart fmt s c).2 ∧
      Consumes s (encStart fmt s c).1 (encStart fmt s c).2 := by
  unfold encStart
  split
  · have added := h.addchar c
    split
    · next eq =>
      rw [eq] at added
      exact ⟨⟨added.after.curr 3, trivial, trivial⟩, fun e ok => by cases ok⟩
    · next s₁ _ eq =>
      have same : s₁.input = s.input := congrArg (·.1.input) eq.symm
      rw [eq] at added
      split
      · split
        · exact ⟨⟨added.after.curr 3, trivial, trivial⟩, fun e ok => by cases ok⟩
        · refine ⟨(finds_option added fmt).1, fun e ok => ?_⟩
          rw [← same]
          exact (finds_option added fmt).2 e ok
      · refine ⟨(finds_option added.keep fmt).1, fun e ok => ?_⟩
        rw [← same, ← (keep_curr s₁).2]
        exact (finds_option added.keep fmt).2 e ok
  · have next := (h.set 1).nextvis fmt.com
    have less := ((h.set 1).after.nextvis fmt.com).2
    split
    · next eq =>
      rw [eq] at next
      exact ⟨⟨next.after, trivial, trivial⟩, fun e ok => by cases ok⟩
    · next s' c' eq =>
      rw [eq] at next less
      have shorter : s'.input.length < s.input.length := less c' rfl
      split
      · exact ⟨⟨next.after, trivial, trivial⟩, fun e ok => by cases ok⟩
      · have added := (next.set 9).addchar c'
        split
        · next eq =>
          rw [eq] at added
          exact ⟨⟨added.after, trivial, trivial⟩, fun e ok => by cases ok⟩
        · next s₁ _ eq =>
          have same : s₁.input = s'.input := congrArg (·.1.input) eq.symm
          rw [eq] at added
          have input := (keep_curr s₁).2
          have finds {t' : Parser} (reads : Reads els 9 t' s₁.keep) := reads_scan
            (encBody fmt) (fun s _ => (s, .error .missingData)) (Finds els t')
            (fun s e h => ⟨h.after, trivial, trivial⟩) (fun x s c h => enc_turn fmt x c h) () reads
          rw [input] at finds
          refine ⟨finds added.keep, fun e ok => ?_⟩
          have less := (finds ⟨.refl added.keep.after.line, added.keep.gathers,
            added.keep.curr⟩).after.length
          refine Nat.lt_of_le_of_lt less ?_
          rw [input, same]
          exact shorter

/-- `mpt_parse_format_enc` -/
theorem finds_formatEnc (h : Reads els k t s) (fmt : Format) :
    Finds els t (formatEnc fmt s).1 (formatEnc fmt s).2 ∧
      Consumes s (formatEnc fmt s).1 (formatEnc fmt s).2 := by
  have next := h.nextvis fmt.com
  have less := (h.after.nextvis fmt.com).2
  unfold formatEnc
  split
  · split
    · exact finds_encStart h fmt _
    · split
      · next eq =>
        rw [eq] at next
        exact ⟨⟨next.after.curr 0, trivial, trivial⟩, fun e ok => by cases ok⟩
      · next s' c eq =>
        rw [eq] at next less
        have shorter : s'.input.length < s.input.length := less c rfl
        split
        · exact ⟨⟨next.after.curr 2, next.gathers, rfl, Nat.succ_pos _⟩, fun _ _ => shorter⟩
        · refine ⟨(finds_encStart next fmt c).1, fun e ok => ?_⟩
          exact Nat.lt_trans ((finds_encStart next fmt c).2 e ok) shorter
  · split
    · next eq =>
      rw [eq] at next
      exact ⟨⟨next.after.curr 8, trivial, trivial⟩, fun e ok => by cases ok⟩
    · next s' c eq =>
      rw [eq] at next less
      have shorter : s'.input.length < s.input.length := less c rfl
      refine ⟨(finds_encStart next fmt c).1, fun e ok => ?_⟩
      exact Nat.lt_trans ((finds_encStart next fmt c).2 e ok) shorter

theorem sep_turn (fmt : Format) (x : Unit) (c : Byte) (h : Reads els k t s) :
    (sepBody fmt x s c).Ends (Finds els t) fun s' => Reads els k t s' ∧ s'.input = s.input := by
  unfold sepBody
  split
  · exact finds_openSection (h.set 9) rfl
  split
  · exact ⟨h.after.curr 1, trivial, trivial⟩
  split
  · exact ⟨h.keep, (keep_curr _).2⟩
  split
  · exact ⟨h.after.curr 1, trivial, trivial⟩
  · exact ⟨h, rfl⟩

theorem finds_sepName (h : Reads els k t s) (fmt : Format) :
    Finds els t (sepName fmt s).1 (sepName fmt s).2 := by
  have finds {s : Parser} (reads : Reads els k t s) (c : Byte) := reads_scanFrom
    (sepBody fmt) (fun s _ => ({ s with curr := 1 }, .error .badValue)) (Finds els t)
    (fun s e h => ⟨h.after.curr 1, trivial, trivial⟩) (fun x s c h => sep_turn fmt x c h) c () reads
  unfold sepName
  dsimp only
  split
  · have next := h.getchar
    split
    · next eq =>
      rw [eq] at next
      exact ⟨next.after.curr 1, trivial, trivial⟩
    · next eq =>
      rw [eq] at next
      exact finds next _
  · exact finds h _

/-- Behind the end of a section its name can be the empty one that no character is taken for. -/
def Advances (s s' : Parser) (r : Result) : Prop :=
  ∀ e, r = .ok (some e) → s'.input.length < s.input.length ∨
    s'.input.length ≤ s.input.length ∧ s.prev % 16 = 2 ∧ s'.curr % 16 ≠ 2

theorem Consumes.advances (h : Consumes s s' r) : Advances s s' r :=
  fun e ok => .inl (h e ok)

theorem openSection_curr (s : Parser) : s.openSection.1.curr = s.curr := by
  unfold Parser.openSection
  split
  · rfl
  · split
    · next eq => exact congrArg (·.1.curr) eq.symm
    · next eq => exact congrArg (·.1.curr) eq.symm

/-- The name of a section is no section end. -/
theorem sepName_curr (h : Reads els k t s) (fmt : Format) (e : Event)
    (ok : (sepName fmt s).2 = .ok (some e)) : (sepName fmt s).1.curr = 9 := by
  let Q : Parser → Result → Prop := fun s r => ∀ e, r = .ok (some e) → s.curr = 9
  have turn (x : Unit) (s : Parser) (c : Byte) (h : Reads els k t s) :
      (sepBody fmt x s c).Ends Q fun s' => Reads els k t s' ∧ s'.input = s.input := by
    unfold sepBody
    split
    · exact fun _ _ => openSection_curr _
    split
    · exact fun _ ok => by cases ok
    split
    · exact ⟨h.keep, (keep_curr _).2⟩
    split
    · exact fun _ ok => by cases ok
    · exact ⟨h, rfl⟩
  have finds {s : Parser} (reads : Reads els k t s) (c : Byte) := reads_scanFrom
    (sepBody fmt) (fun s _ => ({ s with curr := 1 }, .error .badValue)) Q
    (fun s e h => fun _ ok => by cases ok) turn c () reads
  revert ok
  unfold sepName
  dsimp only
  split
  · have next := h.getchar
    split
    · exact fun ok => by cases ok
    · next eq =>
      rw [eq] at next
      exact finds next _ e
  · exact finds h _ e

/-- `mpt_parse_format_sep` -/
theorem finds_formatSep (h : Reads els k t s) (fmt : Format) :
    Finds els t (formatSep fmt s).1 (formatSep fmt s).2 ∧
      Advances s (formatSep fmt s).1 (formatSep fmt s).2 := by
  have next := h.nextvis fmt.com
  have less := (h.after.nextvis fmt.com).2
  unfold formatSep
  split
  · next ended =>
    have here : Reads els 1 s { s with curr := 1 } := ⟨(After.refl h.after.line).curr 1, h.gathers, rfl⟩
    refine ⟨finds_sepName (h.set 1) fmt, fun e ok => .inr ⟨(finds_sepName here fmt).after.length,
      ended, ?_⟩⟩
    rw [sepName_curr here fmt e ok]
    decide
  · split
    · next eq =>
      rw [eq] at next
      split
      · exact ⟨⟨next.after, trivial, trivial⟩, fun e ok => by cases ok⟩
      · exact ⟨⟨next.after.curr 8, trivial, trivial⟩, fun e ok => by cases ok⟩
    · next s' c eq =>
      rw [eq] at next less
      have shorter : s'.input.length < s.input.length := less c rfl
      split
      · split
        · have added := (next.set 8).addchar c
          split
          · next eq =>
            rw [eq] at added
            exact ⟨⟨added.after, trivial, trivial⟩, fun e ok => by cases ok⟩
          · next s₁ _ eq =>
            have same : s₁.input = s'.input := congrArg (·.1.input) eq.symm
            rw [eq] at added
            obtain ⟨finds, consumes⟩ := finds_option added.keep fmt
            refine ⟨finds, fun e ok => .inl (Nat.lt_trans (consumes e ok) ?_)⟩
            rw [(keep_curr s₁).2, same]
            exact shorter
        · obtain ⟨finds, consumes⟩ := finds_option next fmt
          exact ⟨finds, fun e ok => .inl (Nat.lt_trans (consumes e ok) shorter)⟩
      · split
        · exact ⟨⟨next.after.curr 2, next.gathers, rfl, Nat.succ_pos _⟩, fun _ _ => .inl shorter⟩
        · refine ⟨finds_sepName next fmt, fun e ok => .inl ?_⟩
          have here := finds_sepName ⟨.refl next.after.line, next.gathers, next.curr⟩ fmt
          exact Nat.lt_of_le_of_lt here.after.length shorter

/-- Every parser reads on from where it is, and what it finds takes it further. -/
theorem finds_next (type : FormatType) (fmt : Format) (h : Gathers els s) (line : s.line ≠ 0) :
    Finds els s (type.next fmt s).1 (type.next fmt s).2 ∧
      Advances s (type.next fmt s).1 (type.next fmt s).2 := by
  have start := Reads.start h line
  cases type with
  | option => exact ⟨(finds_option start fmt).1, (finds_option start fmt).2.advances⟩
  | enc => exact ⟨(finds_formatEnc start fmt).1, (finds_formatEnc start fmt).2.advances⟩
  | sep => exact finds_formatSep start fmt
  | pre => exact ⟨(finds_formatPre start fmt).1, (finds_formatPre start fmt).2.advances⟩

end Mpt.Parse
