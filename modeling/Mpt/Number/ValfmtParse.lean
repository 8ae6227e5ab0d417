import Mpt.Array.Values
import Mpt.Number.Valfmt

/-! # Lists of value formats

`mpt_valfmt_parse` reads one description after the other and appends what it reads to an array.
The end of the text and a text without a description are told apart by the consumed length only.
-/

namespace Mpt.Number

open Heap (Env World Traits bufferAlloc bufferDetach poke sizeLimit Elements Granting)

/-- `struct value_format` in storage -/
def formatBytes (fmt : ValueFormat) : List Byte := bytesOf 2 fmt.flags.toNat ++ [fmt.width, fmt.dec]

/-- `mpt_valfmt_add`, with the traits of the core type -/
def valfmtAdd (env : Env) (traits : Traits) (w : World) (arr : Heap.Array) (fmt : ValueFormat) :
    World × Heap.Array × Length :=
  match arr with
  | none =>
      match bufferAlloc env w 32 .none with
      | (w, none) => (w, none, .error .badOperation)
      | (w, some p) =>
          match w.cells p with
          | none => (w.crash, none, .error .badOperation)
          | some b =>
              (poke w p { b with used := 4, traits := some traits } 0 (formatBytes fmt), some p, .ok 1)
  | some p =>
      match w.cells p with
      | none => (w.crash, some p, .error .badOperation)
      | some b =>
          if b.traits ≠ some traits then (w, some p, .error .badType)
          else
            let len := b.used / 4
            match bufferDetach env w p ((len + 8) * 4 % sizeLimit) with
            | (w, none) => (w, some p, .ok 0)
            | (w, some q) =>
                match w.cells q with
                | none => (w.crash, some q, .ok 0)
                | some b =>
                    (poke w q { b with used := (len + 1) * 4 } (len * 4) (formatBytes fmt), some q,
                      .ok (intOf (len + 1)))

theorem valfmtGet_nil : valfmtGet [] = (.ok 0, some .init) := rfl

/-- The loop of `mpt_valfmt_parse`, with `pos - base`. -/
def parseLoop (env : Env) (traits : Traits) (w : World) (arr : Heap.Array) (pos : List Char)
    (done : Nat) : World × Heap.Array × Length :=
  match _got : valfmtGet pos with
  | (.error e, _) => (w, arr, .error e)
  | (.ok curr, fmt) =>
      if _positive : curr ≤ 0 then (w, arr, .ok (if curr = 0 then intOf done else curr))
      else
        match valfmtAdd env traits w arr (fmt.getD .init) with
        | (w, arr, .error e) => (w, arr, .error e)
        | (w, arr, .ok err) =>
            if err < 0 then (w, arr, .ok err)
            else parseLoop env traits w arr (pos.drop curr.toNat) (done + curr.toNat)
termination_by pos.length
decreasing_by
  have given : pos ≠ [] := by
    rintro rfl
    rw [valfmtGet_nil] at _got
    cases _got
    exact _positive (by decide)
  have := List.length_pos_of_ne_nil given
  rw [List.length_drop]
  omega

/-- `mpt_valfmt_parse` -/
def valfmtParse (env : Env) (traits : Traits) (w : World) (arr : Heap.Array) (base : List Char) :
    World × Heap.Array × Length :=
  parseLoop env traits w arr base 0

/-! ## The formats of an array -/

/-- The array has the formats that these bytes are, in a buffer that may be copied. -/
def Formats (traits : Traits) (w : World) (arr : Heap.Array) (content : List Byte) : Prop :=
  Heap.Carries traits w arr content ∧ Heap.Extensible w arr

/-- The traits of `struct value_format` -/
def FormatTraits (traits : Traits) : Prop := traits.size = 4 ∧ traits.init = false

@[simp] theorem length_formatBytes (fmt : ValueFormat) : (formatBytes fmt).length = 4 := by
  simp [formatBytes]

theorem length_formats (fmts : List ValueFormat) :
    (fmts.flatMap formatBytes).length = 4 * fmts.length := by
  induction fmts with
  | nil => rfl
  | cons fmt fmts ih =>
      rw [List.flatMap_cons, List.length_append, ih, length_formatBytes, List.length_cons]
      omega

section

variable {env : Env} {traits : Traits} {w : World} {arr : Heap.Array} {content : List Byte} {n : Nat}

/-- An empty array gets a buffer for the first element. -/
theorem valfmtAdd_first (granted : Granting env) (format : FormatTraits traits) (sound : w.fault = false)
    (fmt : ValueFormat) :
    ∃ w' arr', valfmtAdd env traits w none fmt = (w', arr', .ok 1) ∧
      Formats traits w' arr' (formatBytes fmt) := by
  obtain ⟨size, init⟩ := format
  rcases Heap.bufferAlloc_provided env w 32 .none with ⟨null, -⟩ | ⟨w₁, b, alloc, block⟩
  · exact absurd null (granted _ _)
  have made : w₁.cells w.mallocs = some b := by rw [block.cells, World.store_self]
  have room : b.size = 64 := block.size
  have single : b.refs = 1 := block.refs
  have fault : w₁.fault = false := by rw [block.fault, sound]; rfl
  have inside : ¬ b.size < 0 + (formatBytes fmt).length := by
    rw [length_formatBytes]
    omega
  refine ⟨poke w₁ w.mallocs { b with used := 4, traits := some traits } 0 (formatBytes fmt),
    some w.mallocs, ?_, ?_⟩
  · unfold valfmtAdd
    simp only [alloc, made]
  · unfold poke
    simp only [inside, if_false]
    refine ⟨⟨fault, _, ⟨⟨World.store_self _ _ _, ?_, fault, ?_, ?_⟩, rfl, by omega, init, ?_⟩, ?_⟩,
      Heap.Extensible.single (World.store_self _ _ _) (Nat.le_of_eq single)⟩
    · have := block.mallocs
      simp only [World.store]
      omega
    · exact Nat.lt_of_lt_of_eq Nat.one_pos single.symm
    · simp only [Heap.Buffer.put]
      omega
    · simp only [Heap.Buffer.put, size]
    · have back := Mem.read_write_self b.mem b.base (formatBytes fmt)
      rw [length_formatBytes] at back
      exact back

/-- Elements of an array that may be copied are followed by one more. -/
theorem valfmtAdd_next {p : Nat} {b : Heap.Buffer} (granted : Granting env) (format : FormatTraits traits)
    (elements : Elements traits w p b) (free : ¬ b.pinned) (used : b.used = 4 * n)
    (small : n + 1 < 2 ^ 32) (fmt : ValueFormat) :
    ∃ w' arr', valfmtAdd env traits w (some p) fmt = (w', arr', .ok (intOf (n + 1))) ∧
      Formats traits w' arr' (b.content ++ formatBytes fmt) := by
  obtain ⟨size, init⟩ := format
  have whole : b.used / 4 = n := by omega
  have total : (n + 8) * 4 % sizeLimit = (n + 8) * 4 := by
    unfold sizeLimit
    omega
  have part : (n + 8) * 4 % traits.size = 0 := by rw [size]; omega
  have fits : (n + 8) * 4 + 192 ≤ sizeLimit := by
    unfold sizeLimit
    omega
  obtain ⟨w', q, b₁, out, fault, made, typed, got⟩ :=
    elements.detach granted free part (by omega) fits
  have next := got.continued (elements.detachSize part) (by omega) (formatBytes fmt)
  have room := got.room
  have single : b₁.refs = 1 := got.single
  have inside : ¬ b₁.size < n * 4 + (formatBytes fmt).length := by
    rw [length_formatBytes]
    omega
  refine ⟨poke w' q { b₁ with used := (n + 1) * 4 } (n * 4) (formatBytes fmt), some q, ?_, ?_⟩
  · unfold valfmtAdd
    simp only [elements.held.cell]
    rw [if_neg (not_not_intro elements.typed), whole, total, out]
    simp only [got.cell]
  · unfold poke
    simp only [inside, if_false]
    refine ⟨⟨fault, _, ⟨⟨World.store_self _ _ _, made, fault, ?_, ?_⟩, ?_, by omega, init, ?_⟩, ?_⟩,
      Heap.Extensible.single (World.store_self _ _ _) (Nat.le_of_eq single)⟩
    · exact Nat.lt_of_lt_of_eq Nat.one_pos single.symm
    · simp only [Heap.Buffer.put]
      omega
    · exact typed.trans elements.typed
    · show (n + 1) * 4 % traits.size = 0
      rw [size]
      omega
    · rw [length_formatBytes, used] at next
      rw [show (n + 1) * 4 = 4 * n + 4 by omega, show n * 4 = 4 * n by omega]
      exact next

/-- An element is appended, and the number of elements returned. -/
theorem valfmtAdd_appends (granted : Granting env) (format : FormatTraits traits)
    (h : Formats traits w arr content) (count : content.length = 4 * n) (small : n + 1 < 2 ^ 32)
    (fmt : ValueFormat) :
    ∃ w' arr', valfmtAdd env traits w arr fmt = (w', arr', .ok (intOf (n + 1))) ∧
      Formats traits w' arr' (content ++ formatBytes fmt) := by
  obtain ⟨⟨sound, h⟩, open_⟩ := h
  cases arr with
  | none =>
      have h : content = [] := h
      subst h
      obtain rfl : n = 0 := by
        rw [List.length_nil] at count
        omega
      rw [show intOf (0 + 1) = 1 by decide]
      exact valfmtAdd_first granted format sound fmt
  | some p =>
      obtain ⟨b, elements, rfl⟩ := h
      exact valfmtAdd_next granted format elements (open_ b elements.held.cell)
        ((Heap.length_bufferContent b).symm.trans count) small fmt

theorem parseLoop_error {pos : List Char} (out : valfmtGet pos = (.error e, fmt)) (done : Nat) :
    parseLoop env traits w arr pos done = (w, arr, .error e) := by
  rw [parseLoop]
  split
  · rename_i e' _ same
    rw [out] at same
    cases same
    rfl
  · rename_i same
    rw [out] at same
    cases same

theorem parseLoop_end (done : Nat) : parseLoop env traits w arr [] done = (w, arr, .ok (intOf done)) := by
  rw [parseLoop]
  split
  · rename_i same
    rw [valfmtGet_nil] at same
    cases same
  · rename_i same
    rw [valfmtGet_nil] at same
    cases same
    rfl

/-- One format more, with which the loop goes on unless the number of formats is no `int`. -/
theorem parseLoop_step (granted : Granting env) (format : FormatTraits traits)
    (h : Formats traits w arr content) (count : content.length = 4 * n) (small : n + 1 < 2 ^ 32)
    {pos : List Char} {k : Nat} (out : valfmtGet pos = (.ok (intOf k), some fmt)) (positive : 0 < k)
    (short : k < 2 ^ 31) (done : Nat) :
    ∃ w' arr', Formats traits w' arr' (content ++ formatBytes fmt) ∧
      parseLoop env traits w arr pos done = if intOf (n + 1) < 0 then (w', arr', .ok (intOf (n + 1)))
        else parseLoop env traits w' arr' (pos.drop k) (done + k) := by
  obtain ⟨w', arr', added, formats⟩ := valfmtAdd_appends granted format h count small fmt
  refine ⟨w', arr', formats, ?_⟩
  rw [parseLoop]
  split
  · rename_i same
    rw [out] at same
    cases same
  · rename_i same
    rw [out, intOf_lt short] at same
    cases same
    rw [dif_neg (by omega)]
    simp only [Option.getD_some, added]
    rw [Int.toNat_natCast]

theorem intOf_counted (small : n + 1 < 2 ^ 31) : ¬ intOf (n + 1) < 0 := by
  rw [intOf_lt small]
  omega

/-- What follows a word, or nothing. -/
theorem ends_dropWhile (l : List Char) : Ends (l.dropWhile (!isspace ·)) := by
  unfold Ends
  rcases rest : l.dropWhile (!isspace ·) with _ | ⟨c, r⟩
  · exact .inl rfl
  · refine .inr ⟨c, r, rfl, ?_⟩
    have := List.head?_dropWhile_not (!isspace ·) l
    rw [rest] at this
    simpa using this

/-- A text that ends without white space behind its last word. -/
def Trimmed (text : List Char) : Prop := ∀ c, text.getLast? = some c → isspace c = false

/-- The first word, with the white space in front of it. -/
def lead (text : List Char) : List Char :=
  text.takeWhile isspace ++ (text.dropWhile isspace).takeWhile (!isspace ·)

theorem lead_split {text l : List Char} {c : Char} (front : text.dropWhile isspace = c :: l) :
    c :: l = (c :: l).takeWhile (!isspace ·) ++ l.dropWhile (!isspace ·) ∧
      text = lead text ++ l.dropWhile (!isspace ·) ∧ lead text ≠ [] ∧ Trimmed (lead text) := by
  have plain : isspace c = false := by
    have := List.head?_dropWhile_not isspace text
    rw [front] at this
    simpa using this
  have word : (c :: l).dropWhile (!isspace ·) = l.dropWhile (!isspace ·) := by
    rw [List.dropWhile_cons, if_pos (by simp [plain])]
  have parts : (c :: l).takeWhile (!isspace ·) ++ l.dropWhile (!isspace ·) = c :: l := by
    rw [← word]
    exact List.takeWhile_append_dropWhile
  have first : (c :: l).takeWhile (!isspace ·) = c :: l.takeWhile (!isspace ·) := by
    rw [List.takeWhile_cons, if_pos (by simp [plain])]
  refine ⟨parts.symm, ?_, ?_, ?_⟩
  · rw [lead, front, List.append_assoc, parts, ← front]
    exact List.takeWhile_append_dropWhile.symm
  · rw [lead, front, first]
    simp
  · intro s last
    rw [lead, front, first, List.getLast?_append_of_ne_nil _ (List.cons_ne_nil _ _)] at last
    rw [← first] at last
    have mem := List.mem_of_getLast? last
    simpa using List.mem_takeWhile_imp mem

/-- The loop takes all valid descriptions in front. -/
theorem parseLoop_valid (granted : Granting env) (format : FormatTraits traits) (text : List Char)
    (h : Formats traits w arr content) (count : content.length = 4 * n)
    (short : text.length < 2 ^ 31) (small : n + (descriptions text).1.length < 2 ^ 31) (done : Nat) :
    ∃ w' arr' front rest, text = front ++ rest ∧ Trimmed front ∧
      rest.dropWhile isspace = (descriptions text).2.getD [] ∧
      (descriptions text).1.length ≤ front.length ∧
      Formats traits w' arr' (content ++ (descriptions text).1.flatMap formatBytes) ∧
      parseLoop env traits w arr text done =
        parseLoop env traits w' arr' rest (done + front.length) := by
  fun_induction descriptions text generalizing w arr content n done with
  | case1 text blank =>
      exact ⟨w, arr, [], text, rfl, nofun, blank, Nat.le_refl _, by simpa using h, rfl⟩
  | case2 text c l front invalid =>
      exact ⟨w, arr, [], text, rfl, nofun, front, Nat.le_refl _, by simpa using h, rfl⟩
  | case3 text c l front fmt valid fmts invalid rest ih =>
      obtain ⟨word, whole, given, last⟩ := lead_split front
      have described := valfmtGet_described valid (ends_dropWhile l) (front.trans word)
      have length := congrArg List.length whole
      rw [List.length_append] at length
      have some_ := List.length_pos_of_ne_nil given
      have counted : n + (fmts.length + 1) < 2 ^ 31 := small
      rw [show text.length - (l.dropWhile (!isspace ·)).length = (lead text).length by omega] at described
      obtain ⟨w', arr', formats, next⟩ :=
        parseLoop_step granted format h count (by omega) described some_ (by omega) done
      rw [if_neg (intOf_counted (by omega))] at next
      have drop : text.drop (lead text).length = l.dropWhile (!isspace ·) := by
        conv => lhs; arg 2; rw [whole]
        exact List.drop_left
      rw [drop] at next
      obtain ⟨w'', arr'', front', tail, split, trimmed, blank, many, formats', out⟩ :=
        ih formats (n := n + 1) (by rw [List.length_append, length_formatBytes]; omega) (by omega)
          (by rw [rest]; simp only; omega) (done + (lead text).length)
      rw [rest] at blank many formats'
      simp only at many
      refine ⟨w'', arr'', lead text ++ front', tail, ?_, ?_, blank, ?_, ?_, ?_⟩
      · rw [List.append_assoc, ← split]
        exact whole
      · cases front' with
        | nil => rwa [List.append_nil]
        | cons c front' =>
            intro s same
            rw [List.getLast?_append_of_ne_nil _ (List.cons_ne_nil _ _)] at same
            exact trimmed s same
      · rw [List.length_cons, List.length_append]
        omega
      · rw [List.flatMap_cons, ← List.append_assoc]
        exact formats'
      · rw [next, out, List.length_append, Nat.add_assoc]

/-- The loop only appends, also where the number of formats is no `int`. -/
theorem parseLoop_grows (granted : Granting env) (format : FormatTraits traits) (pos : List Char)
    (h : Formats traits w arr content) (count : content.length = 4 * n)
    (short : pos.length < 2 ^ 31) (small : n + pos.length < 2 ^ 32) (done : Nat) :
    ∃ more, Formats traits (parseLoop env traits w arr pos done).1
      (parseLoop env traits w arr pos done).2.1 (content ++ more) := by
  induction length : pos.length using Nat.strongRecOn generalizing w arr content n pos done with
  | ind k ih =>
      have same : ∃ more, Formats traits w arr (content ++ more) := ⟨[], by simpa using h⟩
      by_cases blank : pos.dropWhile isspace = []
      · cases pos with
        | nil =>
            rw [parseLoop_end]
            exact same
        | cons c pos =>
            have out : valfmtGet (c :: pos) = (.ok (intOf (c :: pos).length), some .init) := by
              rw [valfmtGet, blank]
            obtain ⟨w', arr', formats, next⟩ := parseLoop_step granted format h count (by
              rw [List.length_cons] at small
              omega) out (by simp) (by omega) done
            rw [next]
            split
            · exact ⟨_, formats⟩
            · rw [List.drop_length, parseLoop_end]
              exact ⟨_, formats⟩
      · rcases valfmtGet_readable blank rfl with ⟨-, j, fmt, positive, le, out⟩ | ⟨-, e, out⟩
        · have given : pos ≠ [] := fun none => blank (by rw [none]; rfl)
          have some_ := List.length_pos_of_ne_nil given
          obtain ⟨w', arr', formats, next⟩ := parseLoop_step granted format h count (by omega) out
            positive (by omega) done
          rw [next]
          split
          · exact ⟨_, formats⟩
          · obtain ⟨more, grown⟩ := ih (pos.drop j).length (by rw [List.length_drop]; omega)
              (pos.drop j) formats (n := n + 1)
              (by rw [List.length_append, length_formatBytes]; omega)
              (by rw [List.length_drop]; omega) (by rw [List.length_drop]; omega) (done + j) rfl
            rw [List.append_assoc] at grown
            exact ⟨_, grown⟩
        · rw [parseLoop_error out]
          exact same

/-- A format that is read too many stays in the array. -/
theorem parseLoop_extra (granted : Granting env) (format : FormatTraits traits)
    (h : Formats traits w arr content) (count : content.length = 4 * n) {pos : List Char} {k : Nat}
    (out : valfmtGet pos = (.ok (intOf k), some fmt)) (positive : 0 < k)
    (short : pos.length < 2 ^ 31) (within : k ≤ pos.length) (small : n + pos.length < 2 ^ 32)
    (done : Nat) : ¬ Formats traits (parseLoop env traits w arr pos done).1
      (parseLoop env traits w arr pos done).2.1 content := by
  intro same
  obtain ⟨w', arr', formats, next⟩ :=
    parseLoop_step granted format h count (by omega) out positive (by omega) done
  have more : ∃ more, Formats traits (parseLoop env traits w arr pos done).1
      (parseLoop env traits w arr pos done).2.1 (content ++ formatBytes fmt ++ more) := by
    rw [next]
    split
    · exact ⟨[], by simpa using formats⟩
    · exact parseLoop_grows granted format (pos.drop k) formats (n := n + 1)
        (by rw [List.length_append, length_formatBytes]; omega)
        (by rw [List.length_drop]; omega) (by rw [List.length_drop]; omega) (done + k)
  obtain ⟨more, grown⟩ := more
  have lengths := congrArg List.length (grown.1.unique same.1)
  rw [List.length_append, List.length_append, length_formatBytes] at lengths
  omega

/-- The formats of the valid descriptions are appended, and the length of the text is returned if
    there is nothing else in it, or an error. -/
structure Parses (traits : Traits) (content : List Byte) (text : List Char)
    (out : World × Heap.Array × Length) : Prop where
  formats : Formats traits out.1 out.2.1 (content ++ (descriptions text).1.flatMap formatBytes)
  valid : (descriptions text).2 = none → out.2.2 = .ok text.length
  invalid : (descriptions text).2 ≠ none → Negative out.2.2

/-- No white space behind the last description, and what is no description is not read as one. -/
def Clean (text : List Char) : Prop :=
  match (descriptions text).2 with
  | none => Trimmed text
  | some l => ¬ Readable l

theorem descriptions_given (text : List Char) : (descriptions text).2 ≠ some [] := by
  fun_induction descriptions text with
  | case1 => nofun
  | case2 => simp
  | case3 text c l front fmt valid fmts invalid rest ih =>
      rw [rest] at ih
      exact ih

theorem parses_iff (granted : Granting env) (format : FormatTraits traits) (text : List Char)
    (h : Formats traits w arr content) (count : content.length = 4 * n)
    (short : text.length < 2 ^ 31) (small : n + (descriptions text).1.length < 2 ^ 31) :
    Parses traits content text (valfmtParse env traits w arr text) ↔ Clean text := by
  obtain ⟨w', arr', front, rest, whole, trimmed, blank, many, formats, out⟩ :=
    parseLoop_valid granted format text h count short small 0
  have length := congrArg List.length whole
  rw [List.length_append] at length
  have count' : (content ++ (descriptions text).1.flatMap formatBytes).length =
      4 * (n + (descriptions text).1.length) := by
    rw [List.length_append, length_formats]
    omega
  unfold valfmtParse Clean
  rw [out]
  cases invalid : (descriptions text).2 with
  | none =>
      rw [invalid] at blank
      simp only
      rcases rest with _ | ⟨c, rest⟩
      · rw [List.append_nil] at whole
        rw [parseLoop_end]
        apply iff_of_true
        · refine ⟨formats, fun _ => ?_, fun some_ => absurd invalid some_⟩
          rw [List.length_nil] at length
          rw [intOf_lt (by omega)]
          simp only [Except.ok.injEq]
          omega
        · rwa [whole]
      · -- a default format for the blanks
        have got : valfmtGet (c :: rest) = (.ok (intOf (c :: rest).length), some .init) := by
          rw [valfmtGet, blank]
          rfl
        apply iff_of_false
        · intro parses
          exact parseLoop_extra granted format formats count' got (by simp) (by omega)
            (Nat.le_refl _) (by omega) (0 + front.length) parses.formats
        · intro trim
          have space : ∀ s ∈ c :: rest, isspace s = true := List.dropWhile_eq_nil_iff.mp blank
          rcases last : (c :: rest).getLast? with _ | s
          · simp at last
          · have same : text.getLast? = some s := by
              rw [whole, List.getLast?_append_of_ne_nil _ (List.cons_ne_nil _ _), last]
            have plain := trim s same
            rw [space s (List.mem_of_getLast? last)] at plain
            cases plain
  | some l =>
      rw [invalid] at blank
      have given : l ≠ [] := by
        rintro rfl
        exact descriptions_given text invalid
      simp only
      rcases valfmtGet_readable given blank with ⟨readable, k, fmt, positive, le, got⟩ | ⟨unread, e, got⟩
      · apply iff_of_false
        · intro parses
          exact parseLoop_extra granted format formats count' got positive (by omega) le (by omega)
            (0 + front.length) parses.formats
        · exact not_not_intro readable
      · rw [parseLoop_error got]
        exact iff_of_true ⟨formats, fun none => absurd (none.symm.trans invalid) nofun, fun _ => trivial⟩
          unread

theorem intOf_le (n : Nat) : intOf n < 2 ^ 31 := by
  simp only [intOf, IntType.ofWord, IntType.max, IntType.size]
  omega

/-- The result is an `int`. -/
theorem parseLoop_int (pos : List Char) (done : Nat)
    (out : (parseLoop env traits w arr pos done).2.2 = .ok r) : r < 2 ^ 31 := by
  fun_induction parseLoop env traits w arr pos done with
  | case1 => cases out
  | case2 w arr pos done curr fmt got low =>
      have same := Except.ok.inj out
      have bound := intOf_le done
      split at same <;> omega
  | case3 => cases out
  | case4 =>
      have same := Except.ok.inj out
      omega
  | case5 _ _ _ _ _ _ _ _ _ _ _ _ _ ih => exact ih out

/-- Lists of descriptions are parsed as they are, but for white space at the end and for words that
    are no descriptions and are read as such, unless the length of the text or the number of
    formats is no `int`. -/
theorem valfmts_parsed (granted : Granting env) (format : FormatTraits traits) (text : List Char)
    (h : Formats traits w arr content) (count : content.length = 4 * n) :
    (text.length < 2 ^ 31 → n + (descriptions text).1.length < 2 ^ 31 →
      (Parses traits content text (valfmtParse env traits w arr text) ↔ Clean text)) ∧
    (2 ^ 31 ≤ text.length → (descriptions text).2 = none →
      ¬ Parses traits content text (valfmtParse env traits w arr text)) := by
  refine ⟨parses_iff granted format text h count, ?_⟩
  intro long all parses
  have bound := parseLoop_int text 0 (parses.valid all)
  omega

end

def formatTraits : Traits := ⟨0, 4, false, none⟩

theorem empty_formats : Formats formatTraits .empty none [] := ⟨⟨rfl, rfl⟩, trivial⟩

theorem described_five : describe ['5'] = some ⟨0, 5, 0⟩ := by decide

theorem descriptions_blank {text : List Char} (blank : text.dropWhile isspace = []) :
    descriptions text = ([], none) := by
  rw [descriptions]
  split
  · rfl
  · rename_i same
    rw [blank] at same
    cases same

theorem descriptions_word {text l : List Char} {c : Char} (front : text.dropWhile isspace = c :: l)
    (valid : describe ((c :: l).takeWhile (!isspace ·)) = some fmt) :
    descriptions text = (fmt :: (descriptions (l.dropWhile (!isspace ·))).1,
      (descriptions (l.dropWhile (!isspace ·))).2) := by
  rw [descriptions]
  split
  · rename_i same
    rw [front] at same
    cases same
  · rename_i same
    rw [front] at same
    cases same
    rw [valid]

theorem five_described (after : List Char) (blank : after = [] ∨ after = [' ']) :
    descriptions ('5' :: after) = ([⟨0, 5, 0⟩], none) := by
  have word : ('5' :: after).takeWhile (!isspace ·) = ['5'] := by
    rcases blank with rfl | rfl <;> rfl
  have rest : descriptions (after.dropWhile (!isspace ·)) = ([], none) := by
    apply descriptions_blank
    rcases blank with rfl | rfl <;> rfl
  rw [descriptions_word rfl (show describe (('5' :: after).takeWhile (!isspace ·)) = _ by
    rw [word]
    exact described_five), rest]

theorem fives_described :
    descriptions ['5', ' ', '5'] = ([⟨0, 5, 0⟩, ⟨0, 5, 0⟩], none) := by
  have second : descriptions [' ', '5'] = ([⟨0, 5, 0⟩], none) := by
    rw [descriptions_word rfl (show describe (['5'].takeWhile (!isspace ·)) = _ from described_five),
      descriptions_blank rfl]
  rw [descriptions_word rfl
    (show describe (['5', ' ', '5'].takeWhile (!isspace ·)) = _ from described_five)]
  exact congrArg (fun d => (⟨0, 5, 0⟩ :: d.1, d.2)) second

/-- An array with one format -/
def fiveFormat : World × Heap.Array × Length :=
  valfmtParse Heap.granting formatTraits .empty none ['5']

theorem five_formats :
    Formats formatTraits fiveFormat.1 fiveFormat.2.1 (formatBytes ⟨0, 5, 0⟩) := by
  have clean : Clean ['5'] := by
    unfold Clean
    rw [five_described [] (.inl rfl)]
    intro c last
    cases last
    rfl
  have parses := (parses_iff (n := 0) Heap.granting_all ⟨rfl, rfl⟩ ['5'] empty_formats rfl
    (by decide) (by rw [five_described [] (.inl rfl)]; decide)).mpr clean
  have formats := parses.formats
  rw [five_described [] (.inl rfl)] at formats
  exact formats

/-- Two more formats behind the first one -/
theorem fives_parsed : Parses formatTraits (formatBytes ⟨0, 5, 0⟩) ['5', ' ', '5']
    (valfmtParse Heap.granting formatTraits fiveFormat.1 fiveFormat.2.1 ['5', ' ', '5']) := by
  have parsed := valfmts_parsed (n := 1) Heap.granting_all ⟨rfl, rfl⟩ ['5', ' ', '5'] five_formats
    (length_formatBytes _)
  refine (parsed.1 (by decide) (by rw [fives_described]; decide)).mpr ?_
  unfold Clean
  rw [fives_described]
  intro c last
  cases last
  rfl

/-- A description with a blank behind it. -/
theorem blank_parsed : ¬ ∀ text, Parses formatTraits [] text
    (valfmtParse Heap.granting formatTraits .empty none text) := by
  intro all
  have clean := (parses_iff (n := 0) Heap.granting_all ⟨rfl, rfl⟩ ['5', ' '] empty_formats rfl
    (by decide) (by rw [five_described [' '] (.inr rfl)]; decide)).mp (all ['5', ' '])
  unfold Clean at clean
  rw [five_described [' '] (.inr rfl)] at clean
  exact absurd (clean ' ' rfl) (by decide)

end Mpt.Number
