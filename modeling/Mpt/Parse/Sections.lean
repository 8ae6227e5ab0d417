import Mpt.Parse.TextTree

/-! # Texts of sections, one behind the other

A section begins with its name in between the section characters and ends where the next one
begins, or with the text.  The first options are in no section.
-/

namespace Mpt.Parse

open Mpt.Tree
open Config (Path)
open Config.Path (Holds gather gather_keep gather_first)

/-! ## Layout -/

/-- A name that is not cut short behind its first character. -/
def Solid : List Byte → Prop
  | _ :: c :: _ => isSpace c = false
  | _ => True

/-- The texts of the options of a section. -/
inductive Lines (fmt : Format) : Tree → List Byte → Prop where
  | nil : Lines fmt .nil []
  | option (name val : List Byte) (rest : Tree) (g before after_ d behind t : List Byte)
      (gap : Gap fmt g) (blank : Blank before) (blank' : Blank after_) (blank'' : Blank behind)
      (written : Written fmt val d) (solid : Solid name) (more : Lines fmt rest t) :
      Lines fmt (.option name val rest)
        (g ++ (name ++ (before ++ fmt.assign :: (after_ ++ (d ++ (behind ++ 10 :: t))))))

/-- The texts of some sections. -/
inductive Sections (fmt : Format) : Tree → List Byte → Prop where
  | nil (g : List Byte) (gap : Gap fmt g) : Sections fmt .nil g
  | section_ (name : List Byte) (inner rest : Tree) (g before i t : List Byte) (gap : Gap fmt g)
      (blank : Blank before) (inside : Lines fmt inner i) (more : Sections fmt rest t) :
      Sections fmt (.section_ name inner rest)
        (g ++ fmt.sstart :: (name ++ (before ++ fmt.send :: (i ++ t))))

/-- What is to be handed on for the sections, with the one that is open. -/
def Tree.sections : (open_ : List (List Byte)) → Tree → List Entry
  | open_, section_ name inner rest =>
      (if open_ = [] then [] else [⟨.sectEnd, open_, none⟩]) ++
        ⟨.section_, [name], none⟩ :: inner.entries [name] ++ rest.sections [name]
  | _, _ => []

/-! ## Reading back -/

variable {t s : Parser} {els : List (List Byte)} {cs input rest : List Byte} {keep : Bool}
  {v : Nat} {c : Byte} {fmt : Format}

theorem takes_option (plain : Plain fmt) : Takes (optionBody fmt) Parser.curr (InName fmt) := by
  rintro c ⟨char, line, _, _, assign, com⟩
  refine ⟨char, fun s => ?_⟩
  unfold optionBody
  rw [if_neg plain.assign.1, if_neg line, if_neg assign, plain.oend, if_neg char, isComment_eq char,
    com]
  rfl

theorem takes_sep : Takes (sepBody fmt) Parser.curr (InName fmt) := by
  rintro c ⟨char, line, send, _, _, com⟩
  refine ⟨char, fun s => ?_⟩
  unfold sepBody
  rw [if_neg send, isComment_eq char, com, if_neg line]
  by_cases space : isSpace c = true <;> simp [space]

/-- Behind the name of an option its value is read. -/
theorem optionBody_assign (plain : Plain fmt) (s : Parser) :
    optionBody fmt () s fmt.assign = .leave (s.assign fmt .missingBuffer) := by
  unfold optionBody
  rw [plain.assign.2.1, if_pos rfl]
  rfl

theorem blank_gap {l : List Byte} (blank : Blank l) : Gap fmt l := by
  induction l with
  | nil => exact .nil
  | cons c l ih => exact .space c l (blank c (by simp)).1 (ih fun x mem => blank x (by simp [mem]))

/-- The second character of an option's name, or the one behind it, is looked for again. -/
theorem option_second (plain : Plain fmt) {g : List Byte} (gap : Gap fmt g) (char : c ≠ 0)
    (visible : isSpace c = false) (com : fmt.com.contains c = false)
    (h : State t els cs true v (g ++ c :: rest) s) :
    ∃ s', State t els (cs ++ [c]) true v rest s' ∧
      option fmt s = scanFrom (optionBody fmt) (fun s e => (s, .error (broken e))) c () s' := by
  obtain ⟨s₁, found, state⟩ := nextvis_char gap char visible com h
  obtain ⟨s₂, n, added, state⟩ := (state.curr 11).addchar c
  rw [gather_keep] at state
  refine ⟨s₂, state, ?_⟩
  unfold option
  rw [found]
  dsimp only
  rw [if_neg (fun starts => starts.1 plain.ostart), added]

/-- The name of an option gathers up to the character behind it. -/
theorem optionName_gathers (plain : Plain fmt) {take : Nat} {g name before : List Byte}
    (gap : Gap fmt g) (named : Named fmt take name) (solid : Solid name) (blank : Blank before)
    (prev : s.prev % 16 ≠ 2) (visible : fmt.com.contains fmt.assign = false)
    (h : State t els [] false 0 (g ++ (name ++ (before ++ fmt.assign :: rest))) s) :
    ∃ s' cs', State t els (name ++ cs') true name.length rest s' ∧
      formatSep fmt s = s'.assign fmt .missingBuffer := by
  obtain ⟨c, w, rfl, first⟩ := named.visible.first
  have inside := named.inside plain blank
  have head := inside c (by simp)
  have whole : State t els [] false 0 (g ++ c :: (w ++ (before ++ fmt.assign :: rest))) s := h
  obtain ⟨s₁, found, state⟩ := nextvis_char gap head.1 first head.2.2.2.2.2 whole
  obtain ⟨s₂, n, added, state⟩ := (state.curr 8).addchar c
  rw [gather_first] at state
  have kept := state.kept_some (by simp)
  have start : formatSep fmt s = option fmt s₂.keep := by
    have starts : c ≠ fmt.ostart := by
      rw [plain.ostart]
      exact head.1
    unfold formatSep
    rw [if_neg prev, found]
    dsimp only
    rw [if_pos head.2.2.2.1, if_pos starts, added]
  rw [start]
  cases w with
  | nil =>
      obtain ⟨s₃, state, eq⟩ :=
        option_second plain (blank_gap blank) plain.assign.1 plain.assign.2.1 visible kept
      refine ⟨s₃, [fmt.assign], state, ?_⟩
      rw [eq]
      unfold scanFrom
      rw [optionBody_assign plain]
      rfl
  | cons d w =>
      have second := inside d (by simp)
      obtain ⟨s₃, state, eq⟩ :=
        option_second plain .nil second.1 solid second.2.2.2.2.2 (kept.ahead List.cons_append)
      have kept' := state.kept_some (by simp)
      have more : ∀ x ∈ w ++ before, InName fmt x := fun x mem => inside x (by simp [mem])
      obtain ⟨s₄, scanned, state⟩ := takes_scan (takes_option plain) more
        (fun s e => (s, .error (broken e))) (kept'.ahead (List.append_assoc _ _ _).symm)
      obtain ⟨s₅, state, stopped⟩ := scan_cons (optionBody fmt) (fun s e => (s, .error (broken e))) ()
        state plain.assign.1
      rw [gather_keep] at state
      rw [validOf_name ⟨[c], d, rfl, solid⟩ named.visible.last blank named.short] at state
      refine ⟨s₅, before ++ [fmt.assign], by simpa using state, ?_⟩
      rw [eq]
      unfold scanFrom
      rw [(takes_option plain d second).2, if_neg (by rw [solid]; exact Bool.false_ne_true)]
      dsimp only
      rw [kept'.input, ← List.append_assoc, scanned, stopped, optionBody_assign plain]
      rfl

/-- The name of a section is read up to its end. -/
theorem sepName_read (plain : Plain fmt) {name before : List Byte} (named : Named fmt t.sect name)
    (blank : Blank before) (sep : t.path.sep = 46)
    (h : State t els [] false 0 (name ++ (before ++ fmt.send :: rest)) s) :
    ∃ s' cs' v', sepName fmt s = (s', .ok (some .section_)) ∧
      State t (els ++ [name]) cs' false v' rest s' := by
  obtain ⟨c, w, rfl, first⟩ := named.visible.first
  have inside := named.inside plain blank
  have head := inside c (by simp)
  obtain ⟨s₁, got, state⟩ := h.getchar head.1
  rw [gather_first] at state
  have kept := state.kept_some (by simp)
  have more : ∀ x ∈ w ++ before, InName fmt x := fun x mem => inside x (by simp [mem])
  let fails : Parser → Error → Parser × Result := fun s _ => ({ s with curr := 1 }, .error .badValue)
  obtain ⟨s₂, scanned, state⟩ := takes_scan takes_sep more fails
    (kept.ahead (List.append_assoc _ _ _).symm)
  obtain ⟨s₃, state, stopped⟩ := scan_cons (sepBody fmt) fails () state plain.send.1
  have valid : validOf ([c].length % 2 ^ 16) [c].length (w ++ before) = ([c] ++ w).length :=
    validOf_name ⟨[], c, rfl, first⟩ named.visible.last blank named.short
  rw [gather_keep, valid, List.append_assoc, List.append_assoc, ← List.append_assoc [c]] at state
  have named' : Named fmt ({ s₃ with curr := 9 } : Parser).sect (c :: w) := by
    rw [(state.curr 9).after.sect]
    exact named
  obtain ⟨taken, s', n, cs', added, state'⟩ := name_added named' (state.curr 9) sep
  refine ⟨s', cs', _, ?_, state'⟩
  have turn : sepBody fmt () s₃ fmt.send = .leave { s₃ with curr := 9 }.openSection := by
    unfold sepBody
    rw [if_pos rfl]
  unfold sepName
  rw [if_pos plain.send.2.2.1, got]
  dsimp only
  unfold scanFrom
  rw [(takes_sep c head).2, if_neg (by rw [first]; exact Bool.false_ne_true)]
  dsimp only
  rw [kept.input, show w.append (before ++ fmt.send :: rest) = w ++ before ++ fmt.send :: rest from
    (List.append_assoc _ _ _).symm]
  show scan (sepBody fmt) fails _ () _ = _
  rw [scanned, stopped, turn, resume_leave]
  unfold Parser.openSection
  rw [taken]
  dsimp only
  rw [added]

/-- A section begins, when no other is open. -/
theorem sepSection_read (plain : Plain fmt) (start : fmt.com.contains fmt.sstart = false)
    {g name before : List Byte} (gap : Gap fmt g) (named : Named fmt t.sect name)
    (blank : Blank before) (sep : t.path.sep = 46) (prev : s.prev % 16 ≠ 2)
    (h : State t [] [] false 0 (g ++ fmt.sstart :: (name ++ (before ++ fmt.send :: rest))) s) :
    ∃ s' cs' v', formatSep fmt s = (s', .ok (some .section_)) ∧
      State t [name] cs' false v' rest s' := by
  obtain ⟨s₁, found, state⟩ := nextvis_char gap plain.sstart.1 plain.sstart.2 start h
  obtain ⟨s', cs', v', read, state'⟩ := sepName_read plain named blank sep state
  refine ⟨s', cs', v', ?_, state'⟩
  have none : s₁.path.len = 0 := state.holds.len
  unfold formatSep
  rw [if_neg prev, found]
  dsimp only
  rw [if_neg (fun differ => differ rfl), if_neg (fun some_ => some_ none)]
  exact read

/-- An open section ends where the next one begins. -/
theorem sepEnd_read (plain : Plain fmt) (start : fmt.com.contains fmt.sstart = false)
    {g open_ : List Byte} (gap : Gap fmt g) (prev : s.prev % 16 ≠ 2)
    (h : State t [open_] [] false 0 (g ++ fmt.sstart :: rest) s) :
    ∃ s' : Parser, formatSep fmt s = ({ s' with curr := 2 }, .ok (some .sectEnd)) ∧
      State t [open_] [] false 0 rest { s' with curr := 2 } := by
  obtain ⟨s₁, found, state⟩ := nextvis_char gap plain.sstart.1 plain.sstart.2 start h
  refine ⟨s₁, ?_, state.curr 2⟩
  have some_ : s₁.path.len ≠ 0 := by
    rw [state.holds.len]
    simp [Config.textBytes]
  unfold formatSep
  rw [if_neg prev, found]
  dsimp only
  rw [if_neg (fun differ => differ rfl), if_pos some_]

/-- The operation of an element is the one before the next, and the end of the text stays. -/
theorem left_prev {sect opt n : Nat} {text : List Byte} {s₁ s₂ : Parser} {e : Event}
    (b : Between sect opt els text s) (found : formatSep fmt s = (s₁, .ok (some e)))
    (left : s₁.left e = (s₂, .ok n)) :
    s₂.cycled.prev % 4 = e.flags % 4 ∧ s₂.cycled.fin = s.fin := by
  have gathers : Gathers els s := ⟨[], b.state.holds, by rw [b.state.valid]; exact Nat.zero_le _⟩
  have finds := (finds_next .sep fmt gathers b.state.after.line).1
  simp only [FormatType.next, found] at finds
  have same : s₂.curr = s₁.curr := congrArg (fun r => r.1.curr) left.symm
  have same' : s₂.fin = s₁.fin := congrArg (fun r => r.1.fin) left.symm
  refine ⟨?_, same'.trans finds.after.fin⟩
  show s₂.curr % 4 = _
  rw [same]
  exact finds.noted.1

/-- The options of a section are read element by element. -/
theorem lines_read (plain : Plain fmt) (visible : fmt.com.contains fmt.assign = false)
    {tree : Tree} {text : List Byte} (lines : Lines fmt tree text) {sect opt : Nat}
    (accepted : tree.Accepted fmt sect opt) (b : Between sect opt els (text ++ rest) s)
    (prev : s.prev % 16 ≠ 2) :
    ∃ s' cs, Delivers (formatSep fmt) s cs s' ∧ Between sect opt els rest s' ∧
      (s'.prev % 16 ≠ 2 ∧ s'.fin = s.fin) ∧ List.Forall₂ Shows cs (tree.entries els) := by
  induction lines generalizing s with
  | nil => exact ⟨s, [], .refl s, b, ⟨prev, rfl⟩, .nil⟩
  | option name val tree g before after_ d behind t gap blank blank' blank'' written solid _ ih =>
      obtain ⟨named, short, accepted⟩ := accepted
      have ahead : g ++ (name ++ (before ++ fmt.assign :: (after_ ++ (d ++ (behind ++ 10 :: t))))) ++
          rest = g ++ (name ++ (before ++ fmt.assign :: (after_ ++ (d ++ (behind ++ 10 :: (t ++ rest)))))) := by
        simp
      have named' : Named fmt s.opt name := b.opt.symm ▸ named
      obtain ⟨s₀, cs₀, state₀, start⟩ := optionName_gathers plain gap named' solid blank prev visible
        (b.state.ahead ahead)
      obtain ⟨s₁, cs₁, keep₁, read, state, inside⟩ := assign_read plain .missingBuffer named' blank'
        blank'' written short b.sep state₀
      have found := start.trans read
      have kind : has (if val = [] then Event.option else .optionData).flags
          Event.sectEnd.flags = true := by
        split <;> rfl
      obtain ⟨s₂, n, left, b₂⟩ := b.closed state kind
      obtain ⟨op, fin⟩ := left_prev b found left
      have prev₂ : s₂.cycled.prev % 16 ≠ 2 := by
        have three : (if val = [] then Event.option else .optionData).flags % 4 = 3 := by
          split <;> rfl
        omega
      obtain ⟨s', cs, run, b', ⟨prev', fin'⟩, shows⟩ := ih accepted b₂ prev₂
      refine ⟨s', _, (Delivers.step found left).trans run, b', ⟨prev', fin'.trans fin⟩, .cons ?_ shows⟩
      exact shows_option state inside

/-- A section that was found is open for its options. -/
theorem section_open {sect opt : Nat} {text name : List Byte} {s₁ : Parser}
    (b : Between sect opt [] text s) (found : formatSep fmt s = (s₁, .ok (some .section_)))
    (state : State s [name] cs false v rest s₁) :
    ∃ s₂, Delivers (formatSep fmt) s [s₁.call .section_] s₂ ∧ Between sect opt [name] rest s₂ ∧
      (s₂.prev % 16 ≠ 2 ∧ s₂.fin = s.fin) ∧ Shows (s₁.call .section_) ⟨.section_, [name], none⟩ := by
  obtain ⟨s₂, n, left, b₂⟩ := b.opened state
  obtain ⟨op, fin⟩ := left_prev b found left
  have one : Event.section_.flags % 4 = 1 := rfl
  exact ⟨_, .step found left, b₂, ⟨by omega, fin⟩, rfl, rfl, cs, state.holds⟩

/-- The sections are read one after the other, each with its options. -/
theorem sections_read (plain : Plain fmt) (visible : fmt.com.contains fmt.assign = false)
    (start : fmt.com.contains fmt.sstart = false) {tree : Tree} {text : List Byte}
    (secs : Sections fmt tree text) {sect opt : Nat} (accepted : tree.Accepted fmt sect opt)
    {open_ : List (List Byte)} (single : open_.length ≤ 1) (b : Between sect opt open_ text s)
    (prev : s.prev % 16 ≠ 2) :
    ∃ s' cs els g, Delivers (formatSep fmt) s cs s' ∧ Gap fmt g ∧ Between sect opt els g s' ∧
      s'.fin = s.fin ∧ s'.prev % 16 ≠ 2 ∧ List.Forall₂ Shows cs (tree.sections open_) := by
  induction secs generalizing s open_ with
  | nil g gap => exact ⟨s, [], open_, g, .refl s, gap, b, rfl, prev, .nil⟩
  | section_ name inner tree g before i t gap blank inside _ ih =>
      obtain ⟨named, acceptedInner, accepted⟩ := accepted
      have named' : Named fmt s.sect name := b.sect.symm ▸ named
      have opened : ∃ s₁ cs₁, Delivers (formatSep fmt) s cs₁ s₁ ∧
          Between sect opt [name] (i ++ t) s₁ ∧ (s₁.prev % 16 ≠ 2 ∧ s₁.fin = s.fin) ∧
          List.Forall₂ Shows cs₁
            ((if open_ = [] then [] else [⟨.sectEnd, open_, none⟩]) ++ [⟨.section_, [name], none⟩]) := by
        cases open_ with
        | nil =>
            obtain ⟨s₁, cs₁, v₁, found, state⟩ :=
              sepSection_read plain start gap named' blank b.sep prev b.state
            obtain ⟨s₂, run, b₂, prev₂, shows⟩ := section_open b found state
            exact ⟨s₂, _, run, b₂, prev₂, .cons shows .nil⟩
        | cons last none =>
            obtain rfl : none = [] :=
              List.length_eq_zero_iff.mp (Nat.le_zero.mp (Nat.le_of_succ_le_succ single))
            obtain ⟨s₁, found, state⟩ := sepEnd_read plain start gap prev b.state
            have last_ : State s ([] ++ [last]) [] false 0 _ _ := state
            obtain ⟨s₂, n, left, b₂⟩ := b.closed (e := .sectEnd) last_ rfl
            have two : s₂.cycled.prev % 16 = 2 := by
              have same : s₂.curr = 2 := congrArg (fun r => r.1.curr) left.symm
              show s₂.curr % 16 = 2
              rw [same]
            obtain ⟨s₃, cs₃, v₃, read, state₃⟩ := sepName_read plain
              (show Named fmt s₂.cycled.sect name from b₂.sect.symm ▸ named) blank b₂.sep (b₂.state.curr 1)
            have found₃ : formatSep fmt s₂.cycled = (s₃, .ok (some .section_)) := by
              unfold formatSep
              rw [if_pos two]
              exact read
            obtain ⟨s₄, run, b₄, ⟨prev₄, fin₄⟩, shows⟩ := section_open b₂ found₃ state₃
            have fin := (left_prev b found left).2
            refine ⟨s₄, _, (Delivers.step found left).trans run, b₄, ⟨prev₄, fin₄.trans fin⟩,
              .cons ?_ (.cons shows .nil)⟩
            exact ⟨rfl, rfl, [], state.holds⟩
      obtain ⟨s₁, cs₁, run₁, b₁, ⟨prev₁, fin₁⟩, shows₁⟩ := opened
      obtain ⟨s₂, cs₂, run₂, b₂, ⟨prev₂, fin₂⟩, shows₂⟩ :=
        lines_read plain visible inside acceptedInner b₁ prev₁
      obtain ⟨s', cs, els, g', run, gap', b', fin', prev', shows⟩ :=
        ih accepted (show [name].length ≤ 1 from Nat.le_refl 1) b₂ prev₂
      refine ⟨s', _, els, g', (run₁.trans run₂).trans run, gap', b', fin'.trans (fin₂.trans fin₁),
        prev', ?_⟩
      have all := List.rel_append (List.rel_append shows₁ shows₂) shows
      simpa [Tree.sections] using all

/-- The options and the sections are handed on up to the end of their text. -/
theorem sections_delivers (plain : Plain fmt) (visible : fmt.com.contains fmt.assign = false)
    (start : fmt.com.contains fmt.sstart = false) {first tree : Tree} {i t : List Byte}
    (lines : Lines fmt first i) (secs : Sections fmt tree t) {sect opt : Nat}
    (accepted : first.Accepted fmt sect opt) (accepted' : tree.Accepted fmt sect opt)
    {grants : Nat → Option (Mem Byte)} (granted : ∀ n, grants n ≠ none) :
    ∃ cs s' s'', Delivers (formatSep fmt) (.start (i ++ t) .badValue sect opt grants) cs s' ∧
      formatSep fmt s' = (s'', .ok none) ∧
      List.Forall₂ Shows cs (first.entries [] ++ tree.sections []) := by
  have b : Between sect opt [] (i ++ t) (Parser.start (i ++ t) .badValue sect opt grants) :=
    ⟨⟨.refl Nat.one_ne_zero, .init 46 0, rfl, rfl, rfl, granted⟩, rfl, rfl, rfl⟩
  obtain ⟨s₁, cs₁, run₁, b₁, ⟨prev₁, fin₁⟩, shows₁⟩ :=
    lines_read plain visible lines accepted b (show 1 % 16 ≠ 2 by decide)
  obtain ⟨s₂, cs₂, els, g, run₂, gap, b₂, fin₂, prev₂, shows₂⟩ := sections_read plain visible start
    secs accepted' (show ([] : List (List Byte)).length ≤ 1 from Nat.zero_le 1) b₁ prev₁
  obtain ⟨s₃, ended, state⟩ := nextvis_end gap b₂.state
  have fin : s₃.fin = .badValue := state.after.fin.trans (fin₂.trans fin₁)
  refine ⟨cs₁ ++ cs₂, s₂, s₃, run₁.trans run₂, ?_, List.rel_append shows₁ shows₂⟩
  unfold formatSep
  rw [if_neg prev₂, ended]
  dsimp only
  rw [if_pos fin]

/-- The format with brackets around the names of sections. -/
def brackets : Format := { Format.init with sstart := 91, send := 93 }

theorem Plain.brackets : Plain brackets := by
  refine ⟨by decide, by decide, by decide, rfl, rfl, fun c space => ?_⟩
  exact Plain.init.space c space

/-- The text `a=`, and `[b]` and `[c]` on lines of their own. -/
def bracketsText : List Byte := [97, 61, 10] ++ [91, 98, 93, 10, 91, 99, 93]

theorem brackets_lines : Lines brackets (.option [97] [] .nil) [97, 61, 10] := by
  have blank : Blank [] := fun c mem => by cases mem
  exact .option [97] [] .nil [] [] [] [] [] [] .nil blank blank blank .none trivial .nil

theorem brackets_sections : Sections brackets (.section_ [98] .nil (.section_ [99] .nil .nil))
    [91, 98, 93, 10, 91, 99, 93] := by
  have blank : Blank [] := fun c mem => by cases mem
  exact .section_ [98] .nil _ [] [] [] _ .nil blank .nil
    (.section_ [99] .nil .nil [10] [] [] [] (.space 10 [] rfl .nil) blank .nil (.nil [] .nil))

theorem brackets_accepted : Tree.Accepted brackets 255 255 (.option [97] [] .nil) ∧
    Tree.Accepted brackets 255 255 (.section_ [98] .nil (.section_ [99] .nil .nil)) := by
  have named (c : Byte) (visible : isSpace c = false) (chars : ∀ x ∈ [c], x ≠ 0 ∧ x ≠ 10 ∧ x ≠ 46 ∧
      x ≠ 93 ∧ x ≠ 91 ∧ x ≠ 61 ∧ [35, 0, 0, 0].contains x = false)
      (taken : ncheckLoop 255 true [c] = .ok ()) : Named brackets 255 [c] :=
    ⟨⟨⟨c, [], rfl, visible⟩, [], c, rfl, visible⟩, chars, by simp, taken⟩
  exact ⟨⟨named 97 rfl (by simp) rfl, by decide, trivial⟩,
    named 98 rfl (by simp) rfl, trivial, named 99 rfl (by simp) rfl, trivial, trivial⟩

/-- One tree behind the other. -/
def Tree.append : Tree → Tree → Tree
  | nil, tree => tree
  | option name val rest, tree => option name val (rest.append tree)
  | section_ name inner rest, tree => section_ name inner (rest.append tree)

theorem entries_append (first tree : Tree) (els : List (List Byte)) :
    (first.append tree).entries els = first.entries els ++ tree.entries els := by
  induction first with
  | nil => rfl
  | option name val rest ih => simp [Tree.append, Tree.entries, ih]
  | section_ name inner rest _ ih => simp [Tree.append, Tree.entries, ih]

theorem accepted_append {fmt : Format} {sect opt : Nat} {first tree : Tree}
    (accepted : first.Accepted fmt sect opt) (accepted' : tree.Accepted fmt sect opt) :
    (first.append tree).Accepted fmt sect opt := by
  induction first with
  | nil => exact accepted'
  | option name val rest ih => exact ⟨accepted.1, accepted.2.1, ih accepted.2.2⟩
  | section_ name inner rest _ ih => exact ⟨accepted.1, accepted.2.1, ih accepted.2.2⟩

/-- With the end of the last section the elements of all sections are nested. -/
theorem sections_closed {fmt : Format} {tree : Tree} {text : List Byte}
    (secs : Sections fmt tree text) (last : List Byte) :
    ∃ name, ⟨.sectEnd, [last], none⟩ :: tree.entries [] =
      tree.sections [last] ++ [⟨.sectEnd, [name], none⟩] := by
  induction secs generalizing last with
  | nil => exact ⟨last, rfl⟩
  | section_ name inner rest g before i t _ _ _ _ ih =>
      obtain ⟨closed, eq⟩ := ih name
      refine ⟨closed, ?_⟩
      have all := congrArg (fun l => (⟨.sectEnd, [last], none⟩ : Entry) :: ⟨.section_, [name], none⟩ ::
        inner.entries [name] ++ l) eq
      simpa [Tree.sections, Tree.entries] using all

theorem sections_all {tree : Tree} {text : List Byte} (secs : Sections fmt tree text) :
    ∃ behind, tree.entries [] = tree.sections [] ++ behind ∧
      (behind = [] ∨ ∃ name, behind = [⟨.sectEnd, [name], none⟩]) := by
  cases secs with
  | nil => exact ⟨[], rfl, .inl rfl⟩
  | section_ name inner rest g before i t gap blank inside more =>
      obtain ⟨closed, eq⟩ := sections_closed more name
      refine ⟨_, ?_, .inr ⟨closed, rfl⟩⟩
      have all := congrArg (fun l => (⟨.section_, [name], none⟩ : Entry) :: inner.entries [name] ++ l) eq
      simpa [Tree.sections, Tree.entries] using all

end Mpt.Parse
