import Mpt.Meta.TextIterator
import Mathlib.Data.List.TakeWhile

/-! # Passes of text iterators

The text of an iterator is always the original one with at most one terminator put into it,
and what is behind the position gets shorter with each move.
-/

namespace Mpt.TextIter

variable {V : Type u}

/-! ## Terminators -/

section Terminators

variable {text : List Char} {pos : Nat}

theorem getD_inside (inside : pos < text.length) : text.getD pos '\x00' = text.get ⟨pos, inside⟩ := by
  rw [List.getD_eq_getElem?_getD, List.getElem?_eq_getElem inside]
  rfl

theorem set_back (inside : pos < text.length) :
    (text.set pos '\x00').set pos (text.getD pos '\x00') = text := by
  rw [List.set_set, getD_inside inside]
  exact List.set_getElem_self inside

theorem cstring_plain (plain : '\x00' ∉ text) : cstring text = text :=
  List.takeWhile_eq_self_iff.mpr fun _ mem => decide_eq_true fun same => plain (same ▸ mem)

theorem plain_drop (plain : '\x00' ∉ text) (n : Nat) : '\x00' ∉ text.drop n :=
  fun mem => plain (List.mem_of_mem_drop mem)

end Terminators

/-! ## The text -/

/-- The text is the original one when the terminator is taken back, which is behind the
    position. -/
structure Sound (text sep : List Char) (it : ParseIterator) : Prop where
  sep : it.sep = sep
  restored : it.restored = text
  held : ∀ pos c, it.restore = some (pos, c) → pos < text.length ∧ ∀ val, it.val = some val → val ≤ pos
  val : ∀ val, it.val = some val → val ≤ text.length
  end_ : it.end_ = none ∨ it.end_ = some text.length

section Texts

variable {conv : Conversions V} {text sep : List Char} {it : ParseIterator} {val : Nat}

theorem Sound.content (sound : Sound text sep it) (free : it.restore = none) : it.text = text := by
  have restored := sound.restored
  unfold ParseIterator.restored at restored
  rw [free] at restored
  exact restored

theorem sound_start (text : List Char) (sep : Option (List Char)) :
    Sound text (sep.getD [' ', ',', ';', '/', ':']) (iteratorString (some text) sep) := by
  refine ⟨rfl, rfl, fun pos c wrong => ?_, fun val here => ?_, .inr rfl⟩
  · cases wrong
  · cases here
    exact Nat.zero_le _

/-- The terminator is taken back for good. -/
theorem Sound.free (sound : Sound text sep it) : Sound text sep { it with text := text, restore := none } := by
  refine ⟨sound.sep, rfl, fun pos c wrong => ?_, sound.val, sound.end_⟩
  cases wrong

/-- It is taken back, but its position is kept. -/
theorem Sound.kept (sound : Sound text sep it) : Sound text sep { it with text := text } := by
  refine ⟨sound.sep, ?_, sound.held, sound.val, sound.end_⟩
  have restored := sound.restored
  unfold ParseIterator.restored at restored ⊢
  cases held : it.restore with
  | none => rfl
  | some found =>
      obtain ⟨pos, c⟩ := found
      simp only [held] at restored ⊢
      rw [← restored, List.set_set]

theorem Sound.terminate (sound : Sound text sep it) {pos : Nat} (here : it.val = some val) (from_ : val ≤ pos)
    (inside : pos < text.length) : Sound text sep (it.terminate text pos) := by
  refine ⟨sound.sep, set_back inside, fun pos' c held => ?_, sound.val, sound.end_⟩
  cases held
  refine ⟨inside, fun val' here' => ?_⟩
  have here' : it.val = some val' := here'
  rw [here] at here'
  cases here'
  exact from_

theorem Sound.consume (sound : Sound text sep it) {pos : Nat} (here : it.val = some val) (from_ : val ≤ pos) :
    Sound text sep (it.consume text pos) := by
  unfold ParseIterator.consume
  rcases sound.end_ with none_ | some_
  · simp only [none_]
    exact none_ ▸ sound.free
  · simp only [some_]
    by_cases behind : text.length ≤ pos
    · rw [if_pos behind]
      exact some_ ▸ sound.free
    · rw [if_neg behind]
      exact sound.terminate here from_ (Nat.not_le.mp behind)

theorem consume_val (it : ParseIterator) (text : List Char) (pos : Nat) :
    (it.consume text pos).val = it.val ∧ (it.consume text pos).end_ = it.end_ := by
  unfold ParseIterator.consume
  cases ended : it.end_ with
  | none => exact ⟨rfl, rfl⟩
  | some end_ =>
      simp only
      split
      · exact ⟨rfl, rfl⟩
      · exact ⟨rfl, ended⟩

/-- A conversion keeps the text and the position. -/
theorem sound_convert (conv : Conversions V) (sound : Sound text sep it) (type : Nat) :
    Sound text sep (parseConvert conv it type).1 ∧ (parseConvert conv it type).1.val = it.val := by
  obtain ⟨sep', text', val', end', restore'⟩ := it
  unfold parseConvert
  cases val' with
  | none => exact ⟨sound, rfl⟩
  | some val =>
      have bound := sound.val val rfl
      simp only [sound.restored]
      generalize rest_ : cstring (text.drop val) = rest
      have shorter : rest.length ≤ text.length - val := by
        rw [← rest_, ← List.length_drop]
        exact List.Sublist.length_le (List.takeWhile_sublist _)
      have used : ∀ len, Sound text sep (ParseIterator.consume ⟨sep', text', some val, end', restore'⟩ text (val + len)) ∧
          (ParseIterator.consume ⟨sep', text', some val, end', restore'⟩ text (val + len)).val = some val :=
        fun len => ⟨sound.consume rfl (Nat.le_add_right _ _), (consume_val _ text (val + len)).1⟩
      by_cases empty : rest = []
      · rw [if_pos empty]
        exact ⟨sound.free, rfl⟩
      · rw [if_neg empty]
        by_cases string : type = 0x73
        · rw [if_pos string]
          exact ⟨sound.free, rfl⟩
        · rw [if_neg string]
          by_cases vector : type = charVector
          · rw [if_pos vector]
            by_cases word : wordEnd rest < rest.length
            · rw [if_pos word]
              exact ⟨sound.terminate rfl (Nat.le_add_right _ _) (by omega), rfl⟩
            · rw [if_neg word]
              exact ⟨sound, rfl⟩
          · rw [if_neg vector]
            by_cases key : type = 0x6b
            · rw [if_pos key]
              cases conv.key (if sep' = [] then none else some sep') rest with
              | none => exact ⟨sound.free, rfl⟩
              | some found => exact used found.1
            · rw [if_neg key]
              cases conv.string type rest with
              | none => exact ⟨sound.kept, rfl⟩
              | some found => exact used found.1

theorem sound_reset (sound : Sound text sep it) : Sound text sep (parseReset it) := by
  refine ⟨sound.sep, sound.restored, fun pos c wrong => ?_, fun val here => ?_, sound.end_⟩
  · cases wrong
  · cases here
    exact Nat.zero_le _

/-- What is behind the position, and one more for the iterator to be finished. -/
def ParseIterator.left (it : ParseIterator) (text : List Char) : Nat :=
  match it.val with
  | none => 1
  | some val => text.length - val + 2

/-- A move keeps the text; there is less behind the position when the iterator was moved. -/
theorem sound_advance (sound : Sound text sep it) (plain : '\x00' ∉ text) :
    Sound text sep (parseAdvance it).1 ∧
      ((parseAdvance it).2 = .moved → (parseAdvance it).1.left text < it.left text) := by
  obtain ⟨sep', text', val', end', restore'⟩ := it
  unfold parseAdvance
  cases end' with
  | none => exact ⟨sound, fun wrong => by cases wrong⟩
  | some end_ =>
      obtain rfl : end_ = text.length := by
        rcases sound.end_ with none_ | some_
        · cases none_
        · exact Option.some.inj some_
      cases val' with
      | none =>
          refine ⟨⟨sound.sep, sound.restored, sound.held, sound.val, .inl rfl⟩, fun wrong => ?_⟩
          cases wrong
      | some val =>
          simp only
          by_cases last : text.length = val
          · rw [if_pos last]
            refine ⟨⟨sound.sep, sound.restored, fun pos c held => ?_, fun val wrong => ?_, .inl rfl⟩, fun wrong => ?_⟩
            · refine ⟨(sound.held pos c held).1, fun val' wrong => ?_⟩
              cases wrong
            · cases wrong
            · cases wrong
          · rw [if_neg last]
            have bound := sound.val val rfl
            cases restore' with
            | some found =>
                obtain ⟨pos, c⟩ := found
                obtain ⟨inside, behind⟩ := sound.held pos c rfl
                have from_ := behind val rfl
                refine ⟨⟨sound.sep, sound.restored, fun pos c wrong => ?_, fun val' here => ?_, .inr rfl⟩,
                  fun _ => ?_⟩
                · cases wrong
                · cases here
                  exact inside
                · show text.length - (pos + 1) + 2 < text.length - val + 2
                  omega
            | none =>
                have content : text' = text := sound.content rfl
                subst content
                have nothing : ((text'.drop val).take (text'.length - val)).findIdx? (fun c => c = '\x00') = none := by
                  rw [List.findIdx?_eq_none_iff]
                  intro c mem
                  exact decide_eq_false fun same =>
                    plain (same ▸ List.mem_of_mem_drop (List.mem_of_mem_take mem))
                simp only [nothing]
                refine ⟨⟨sound.sep, sound.restored, fun pos c wrong => ?_, fun val wrong => ?_, .inr rfl⟩,
                  fun wrong => ?_⟩
                · cases wrong
                · cases wrong
                · cases wrong

theorem sound_step (sound : Sound text sep it) (plain : '\x00' ∉ text) (call : IterCall) :
    Sound text sep ((parseCalls conv).step it call).1 := by
  cases call with
  | convert type => exact (sound_convert conv sound type).1
  | advance => exact (sound_advance sound plain).1
  | reset => exact sound_reset sound

/-- A pass ends. -/
theorem pass_ends (plain : '\x00' ∉ text) (types : Nat → Nat) (fuel i : Nat) (it : ParseIterator)
    (sound : Sound text sep it) (enough : it.left text ≤ fuel) :
    (pass (parseCalls conv) types fuel i it).isSome = true := by
  induction fuel generalizing it i with
  | zero =>
      unfold ParseIterator.left at enough
      cases here : it.val with
      | none => simp [here] at enough
      | some val => simp [here] at enough
  | succ fuel ih =>
      obtain ⟨sound', same⟩ := sound_convert conv sound (types i)
      obtain ⟨sound'', less⟩ := sound_advance sound' plain
      have kept : (parseConvert conv it (types i)).1.left text = it.left text := by
        unfold ParseIterator.left
        rw [same]
      unfold pass
      simp only [parseCalls]
      cases moved : (parseAdvance (parseConvert conv it (types i)).1).2 with
      | missing => rfl
      | finished => rfl
      | moved =>
          rw [kept] at less
          have shorter := less moved
          have rest := ih (i + 1) _ sound'' (by omega)
          simp only [Option.isSome_map]
          exact rest

end Texts

/-! ## Clones -/

/-- The iterator with something before its text. -/
def ParseIterator.shift (before : List Char) (it : ParseIterator) : ParseIterator :=
  ⟨it.sep, before ++ it.text, it.val.map fun val => before.length + val,
    it.end_.map fun end_ => before.length + end_,
    it.restore.map fun found => (before.length + found.1, found.2)⟩

section Clones

variable {conv : Conversions V} {before : List Char} {it : ParseIterator}

theorem set_shift (text : List Char) (pos : Nat) (c : Char) :
    (before ++ text).set (before.length + pos) c = before ++ text.set pos c := by
  rw [List.set_append_right _ _ (Nat.le_add_right _ _), Nat.add_sub_cancel_left]

theorem shift_restored : (it.shift before).restored = before ++ it.restored := by
  obtain ⟨sep, text, val, end_, restore⟩ := it
  cases restore with
  | none => rfl
  | some found => exact set_shift text found.1 found.2

theorem shift_terminate (text : List Char) (pos : Nat) :
    (it.shift before).terminate (before ++ text) (before.length + pos) = (it.terminate text pos).shift before := by
  have same : (before ++ text).getD (before.length + pos) '\x00' = text.getD pos '\x00' := by
    rw [List.getD_eq_getElem?_getD, List.getD_eq_getElem?_getD,
      List.getElem?_append_right (Nat.le_add_right _ _), Nat.add_sub_cancel_left]
  unfold ParseIterator.terminate
  rw [same, set_shift]
  rfl

theorem shift_consume (text : List Char) (pos : Nat) :
    (it.shift before).consume (before ++ text) (before.length + pos) = (it.consume text pos).shift before := by
  obtain ⟨sep, old, val, end_, restore⟩ := it
  cases end_ with
  | none => rfl
  | some end_ =>
      show (if before.length + end_ ≤ before.length + pos then _ else _) =
        ParseIterator.shift before (if end_ ≤ pos then _ else _)
      by_cases behind : end_ ≤ pos
      · rw [if_pos behind, if_pos (Nat.add_le_add_left behind _)]
        rfl
      · rw [if_neg behind, if_neg (fun wrong => behind (Nat.le_of_add_le_add_left wrong))]
        exact shift_terminate text pos

theorem shift_convert (conv : Conversions V) (before : List Char) (it : ParseIterator) (type : Nat) :
    parseConvert conv (it.shift before) type =
      ((parseConvert conv it type).1.shift before, (parseConvert conv it type).2) := by
  obtain ⟨sep, old, val, end_, restore⟩ := it
  cases val with
  | none => rfl
  | some val =>
      have position : (ParseIterator.shift before ⟨sep, old, some val, end_, restore⟩).val =
          some (before.length + val) := rfl
      unfold parseConvert
      simp only [position, shift_restored]
      generalize ParseIterator.restored ⟨sep, old, some val, end_, restore⟩ = text
      have same : cstring ((before ++ text).drop (before.length + val)) = cstring (text.drop val) := by
        rw [List.drop_length_add_append]
      rw [same]
      generalize cstring (text.drop val) = rest
      by_cases empty : rest = []
      · simp only [if_pos empty]
        rfl
      · simp only [if_neg empty]
        by_cases string : type = 0x73
        · simp only [if_pos string]
          rfl
        · simp only [if_neg string]
          by_cases vector : type = charVector
          · simp only [if_pos vector]
            by_cases word : wordEnd rest < rest.length
            · simp only [if_pos word]
              rw [Nat.add_assoc, shift_terminate]
            · simp only [if_neg word]
          · simp only [if_neg vector]
            by_cases key : type = 0x6b
            · simp only [if_pos key]
              have seps : (ParseIterator.shift before ⟨sep, old, some val, end_, restore⟩).sep = sep := rfl
              rw [seps]
              cases conv.key (if sep = [] then none else some sep) rest with
              | none => rfl
              | some found =>
                  simp only
                  rw [Nat.add_assoc, shift_consume]
            · simp only [if_neg key]
              cases conv.string type rest with
              | none => rfl
              | some found =>
                  simp only
                  rw [Nat.add_assoc, shift_consume]

theorem shift_advance (before : List Char) (it : ParseIterator) :
    parseAdvance (it.shift before) = ((parseAdvance it).1.shift before, (parseAdvance it).2) := by
  obtain ⟨sep, text, val, end_, restore⟩ := it
  cases end_ with
  | none => rfl
  | some end_ =>
      cases val with
      | none => rfl
      | some val =>
          show (if before.length + end_ = before.length + val then _ else _) = _
          have same : before.length + end_ = before.length + val ↔ end_ = val := Nat.add_left_cancel_iff
          by_cases last : end_ = val
          · rw [if_pos (same.mpr last)]
            unfold parseAdvance
            simp only [if_pos last]
            rfl
          · rw [if_neg (mt same.mp last)]
            unfold parseAdvance
            simp only [if_neg last]
            cases restore with
            | some found =>
                obtain ⟨pos, c⟩ := found
                show (_, Move.moved) = (_, Move.moved)
                refine congrArg (fun it => (it, Move.moved)) ?_
                unfold ParseIterator.shift
                simp only [ParseIterator.restored, Option.map_some, set_shift]
                rfl
            | none =>
                have rest : ((before ++ text).drop (before.length + val)).take
                    (before.length + end_ - (before.length + val)) = (text.drop val).take (end_ - val) := by
                  rw [List.drop_length_add_append, Nat.add_sub_add_left]
                simp only [ParseIterator.shift, Option.map_none]
                rw [rest]
                cases ((text.drop val).take (end_ - val)).findIdx? fun c => c = '\x00' with
                | none => rfl
                | some i =>
                    simp only [Option.map_some, Option.map_none, Nat.add_assoc]

/-- A clone that is made of all that is left does what the iterator does. -/
theorem clone_outputs {text sep : List Char} (sound : Sound text sep it) (plain : '\x00' ∉ text)
    (free : it.restore = none) (there : it.val ≠ none) (ending : it.end_ ≠ none) (calls : List IterCall)
    (forward : ∀ call ∈ calls, call ≠ .reset) :
    (parseCalls conv).outputs (parseClone it) calls = (parseCalls conv).outputs it calls := by
  obtain ⟨val, here⟩ := Option.ne_none_iff_exists'.mp there
  have bound := sound.val val here
  have content := sound.content free
  have ended : it.end_ = some text.length := sound.end_.resolve_left ending
  have clone : parseClone it = ⟨it.sep, text.drop val, some 0, some (text.length - val), none⟩ := by
    unfold parseClone iteratorString
    simp only [free, here, Option.map_some, content, cstring_plain (plain_drop plain val), Option.getD_some,
      List.length_drop]
  have shifted : it = (parseClone it).shift (text.take val) := by
    rw [clone]
    obtain ⟨sep', text', val', end', restore'⟩ := it
    have len : (text.take val).length = val := List.length_take_of_le bound
    simp only [ParseIterator.shift, len, Option.map_some, Option.map_none, List.take_append_drop, Nat.add_zero,
      Nat.add_sub_cancel' bound]
    simp only at free here content ended
    rw [free, here, content, ended]
  have start : it = (parseClone it).shift (text.take val) := shifted
  generalize parseClone it = c at start
  clear shifted clone sound free there ending here content ended
  induction calls generalizing it c with
  | nil => rfl
  | cons call calls ih =>
      subst start
      have rest : ∀ call ∈ calls, call ≠ .reset := fun call mem => forward call (List.mem_cons_of_mem _ mem)
      cases call with
      | reset => exact absurd rfl (forward .reset (List.mem_cons_self ..))
      | convert type =>
          have same := shift_convert conv (text.take val) c type
          have later := ih rest (parseConvert conv c type).1 rfl
          simp only [Machine.outputs, parseCalls, same] at later ⊢
          rw [later]
      | advance =>
          have same := shift_advance (text.take val) c
          have later := ih rest (parseAdvance c).1 rfl
          simp only [Machine.outputs, parseCalls, same] at later ⊢
          rw [later]

end Clones

/-! ## Runs of the iterator of a text -/

/-- The condition for a call: characters are asked for only where a space follows the word. -/
def FineText (it : ParseIterator) : IterCall → Prop
  | .convert type =>
      type = charVector → ∀ val, it.val = some val →
        cstring (it.restored.drop val) = [] ∨
          wordEnd (cstring (it.restored.drop val)) < (cstring (it.restored.drop val)).length
  | .advance => True
  | .reset => True

section Runs

variable {conv : Conversions V} {it : ParseIterator}

theorem inside_step (call : IterCall) (fine : FineText it call) :
    ((parseCalls conv).step it call).2 ≠ .outside := by
  cases call with
  | advance => exact fun wrong => by cases wrong
  | reset => exact fun wrong => by cases wrong
  | convert type =>
      show (parseConvert conv it type).2 ≠ .outside
      unfold parseConvert
      cases here : it.val with
      | none => exact fun wrong => by cases wrong
      | some val =>
          simp only
          by_cases empty : cstring (it.restored.drop val) = []
          · rw [if_pos empty]
            show (if type = 0x73 then Answer.noText else Answer.missing) ≠ .outside
            split
            · exact fun wrong => by cases wrong
            · exact fun wrong => by cases wrong
          · rw [if_neg empty]
            by_cases string : type = 0x73
            · rw [if_pos string]
              exact fun wrong => by cases wrong
            · rw [if_neg string]
              by_cases vector : type = charVector
              · rw [if_pos vector, if_pos ((fine vector val here).resolve_left empty)]
                exact fun wrong => by cases wrong
              · rw [if_neg vector]
                by_cases key : type = 0x6b
                · rw [if_pos key]
                  cases conv.key (if it.sep = [] then none else some it.sep) (cstring (it.restored.drop val)) with
                  | none => exact fun wrong => by cases wrong
                  | some found => exact fun wrong => by cases wrong
                · rw [if_neg key]
                  cases conv.string type (cstring (it.restored.drop val)) with
                  | none => exact fun wrong => by cases wrong
                  | some found => exact fun wrong => by cases wrong

theorem inside_run (calls : List IterCall) (fine : (parseCalls conv).Meets FineText it calls) :
    ∀ answer ∈ (parseCalls conv).outputs it calls, answer ≠ .outside := by
  induction calls generalizing it with
  | nil => exact fun answer mem => by cases mem
  | cons call calls ih =>
      intro answer mem
      rcases List.mem_cons.mp mem with rfl | mem
      · exact inside_step call fine.1
      · exact ih fine.2 answer mem

/-- An iterator that is reset before its end was found is as it was made. -/
theorem reset_start {text : List Char} {sep : Option (List Char)}
    (sound : Sound text (sep.getD [' ', ',', ';', '/', ':']) it) (ending : it.end_ ≠ none) :
    parseReset it = iteratorString (some text) sep := by
  have ended : it.end_ = some text.length := sound.end_.resolve_left ending
  unfold parseReset iteratorString
  rw [sound.restored, sound.sep, ended]

/-- What is asked of the iterator of a text after some calls. -/
structure KeepsText (conv : Conversions V) (start it : ParseIterator) : Prop where
  /-- its text is the original one when no terminator is in it -/
  content : it.restore = none → it.text = start.text
  /-- a pass ends -/
  ends : ∀ types, (pass (parseCalls conv) types (start.text.length + 2) 0 it).isSome = true
  /-- after it was reset there is the first pass again -/
  again : it.end_ ≠ none → ∀ types,
    pass (parseCalls conv) types (start.text.length + 2) 0 (parseReset it) =
      pass (parseCalls conv) types (start.text.length + 2) 0 start
  /-- a clone has the same value and the same after it -/
  clone : it.restore = none → it.val ≠ none → it.end_ ≠ none → ∀ calls : List IterCall,
    (∀ call ∈ calls, call ≠ .reset) →
      (parseCalls conv).outputs (parseClone it) calls = (parseCalls conv).outputs it calls

theorem text_of_run (conv : Conversions V) (text : Text) (sep : Option (List Char)) (calls : List IterCall) :
    KeepsText conv (iteratorString (some text.1) sep)
      ((parseCalls conv).after (iteratorString (some text.1) sep) calls) := by
  have sound : Sound text.1 (sep.getD [' ', ',', ';', '/', ':'])
      ((parseCalls conv).after (iteratorString (some text.1) sep) calls) :=
    Machine.invariant_always (P := fun it => Sound text.1 (sep.getD [' ', ',', ';', '/', ':']) it)
      (fun it call sound => sound_step sound text.2 call) (sound_start text.1 sep) calls
  refine ⟨sound.content, fun types => ?_, fun ending types => ?_, fun free there ending calls forward => ?_⟩
  · refine pass_ends text.2 types _ 0 _ sound ?_
    show ParseIterator.left _ text.1 ≤ text.1.length + 2
    unfold ParseIterator.left
    split
    · exact Nat.le_add_left _ _
    · exact Nat.add_le_add_right (Nat.sub_le _ _) 2
  · rw [reset_start sound ending]
  · exact clone_outputs sound text.2 free there ending calls forward

end Runs

/-! ## Segments of an array -/

section Segments

variable {convert : (type : Nat) → Answer V → Answer V} {kind : BufferKind} {data : List Char} {m : MetaBuffer}

/-- The segment is a part of the data. -/
structure Within (data : List Char) (m : MetaBuffer) : Prop where
  same : m.data = data
  part : m.off + m.len ≤ data.length

/-- How a move goes: the data is kept, and there is less behind the segment when there is a
    next one. -/
theorem within_advance (within : Within data m) :
    Within data (bufferAdvance m).1 ∧
      ((bufferAdvance m).2 = .moved →
        m.off + m.len < (bufferAdvance m).1.off + (bufferAdvance m).1.len) := by
  obtain ⟨data', off, len, str⟩ := m
  obtain ⟨same, part⟩ := within
  obtain rfl : data' = data := same
  have part : off + len ≤ data'.length := part
  unfold bufferAdvance sliceNext
  simp only
  by_cases last : len ≠ 0 ∧ data'.length - off = len
  · rw [if_pos last]
    exact ⟨⟨rfl, part⟩, fun wrong => by cases wrong⟩
  · rw [if_neg last]
    by_cases empty : data'.drop (off + len) = []
    · rw [if_pos empty]
      exact ⟨⟨rfl, part⟩, fun wrong => by cases wrong⟩
    · rw [if_neg empty]
      have rest : (data'.drop (off + len)).length = data'.length - (off + len) := List.length_drop
      have some_ : 0 < (data'.drop (off + len)).length := List.length_pos_iff.mpr empty
      cases found : (data'.drop (off + len)).findIdx? fun c => c = '\x00' with
      | some i =>
          have inside : i < (data'.drop (off + len)).length := by
            obtain ⟨inside, _⟩ := List.findIdx?_eq_some_iff_getElem.mp found
            exact inside
          refine ⟨⟨rfl, ?_⟩, fun _ => ?_⟩
          · show off + len + (i + 1) ≤ data'.length
            omega
          · show off + len < off + len + (i + 1)
            omega
      | none =>
          refine ⟨⟨rfl, ?_⟩, fun _ => ?_⟩
          · show off + len + (data'.drop (off + len)).length ≤ data'.length
            omega
          · show off + len < off + len + (data'.drop (off + len)).length
            omega

/-- What was kept of the segment before makes no difference. -/
theorem advance_segment {m' : MetaBuffer} (data_ : m'.data = m.data) (off : m'.off = m.off)
    (len : m'.len = m.len) : bufferAdvance m' = bufferAdvance m := by
  obtain ⟨data, off', len', str⟩ := m
  obtain ⟨data', off'', len'', str'⟩ := m'
  obtain rfl : data' = data := data_
  obtain rfl : off'' = off' := off
  obtain rfl : len'' = len' := len
  rfl

theorem reset_data (kind : BufferKind) (m : MetaBuffer) :
    kind.reset m = kind.reset ⟨m.data, 0, 0, none⟩ := by
  have first : bufferReset m = bufferReset ⟨m.data, 0, 0, none⟩ := by
    have same : bufferAdvance { m with off := 0, len := 0 } = bufferAdvance ⟨m.data, 0, 0, none⟩ :=
      advance_segment rfl rfl rfl
    unfold bufferReset
    rw [same]
  cases kind with
  | buffer => exact first
  | arguments =>
      show bufferResetArgs m = bufferResetArgs _
      unfold bufferResetArgs
      rw [first]

theorem within_reset (kind : BufferKind) (within : Within data m) : Within data (kind.reset m).1 := by
  have start : Within data { m with off := 0, len := 0 } := ⟨within.same, Nat.zero_le _⟩
  have first : Within data (bufferReset m).1 := by
    unfold bufferReset
    have moved := (within_advance start).1
    cases answer : bufferAdvance { m with off := 0, len := 0 } with
    | mk m' move =>
        rw [answer] at moved
        cases move <;> exact moved
  cases kind with
  | buffer => exact first
  | arguments =>
      show Within data (bufferResetArgs m).1
      unfold bufferResetArgs
      cases answer : bufferReset m with
      | mk m' move =>
          rw [answer] at first
          cases move with
          | missing => exact first
          | finished => exact first
          | moved => exact (within_advance first).1

theorem within_step (within : Within data m) (call : IterCall) :
    Within data ((bufferCalls convert kind).step m call).1 := by
  cases call with
  | convert type => exact within
  | advance => exact (within_advance within).1
  | reset => exact within_reset kind within

theorem buffer_ends (types : Nat → Nat) (fuel i : Nat) (m : MetaBuffer) (within : Within data m)
    (enough : data.length - (m.off + m.len) < fuel) :
    (pass (bufferCalls convert kind) types fuel i m).isSome = true := by
  induction fuel generalizing m i with
  | zero => exact absurd enough (Nat.not_lt_zero _)
  | succ fuel ih =>
      obtain ⟨within', more⟩ := within_advance within
      unfold pass
      simp only [bufferCalls]
      cases moved : (bufferAdvance m).2 with
      | missing => rfl
      | finished => rfl
      | moved =>
          have further := more moved
          have bound := within'.part
          have rest := ih (i + 1) _ within' (by omega)
          simp only [Option.isSome_map]
          exact rest

/-- What is asked of the iterator of an array after some calls. -/
structure KeepsData (convert : (type : Nat) → Answer V → Answer V) (kind : BufferKind)
    (start m : MetaBuffer) : Prop where
  content : m.data = start.data
  ends : ∀ types, (pass (bufferCalls convert kind) types (start.data.length + 1) 0 m).isSome = true
  again : ∀ types, pass (bufferCalls convert kind) types (start.data.length + 1) 0 (kind.reset m).1 =
    pass (bufferCalls convert kind) types (start.data.length + 1) 0 start
  /-- a clone that has the text of the first element has the same value and the same after it -/
  clone : m.len = 0 ∨ m.current = start.current → ∀ calls : List IterCall,
    (∀ call ∈ calls, call ≠ .reset) →
      (bufferCalls convert kind).outputs (bufferCopy kind m) calls = (bufferCalls convert kind).outputs m calls

theorem copy_outputs {m' : MetaBuffer} (data_ : m'.data = m.data) (off : m'.off = m.off) (len : m'.len = m.len)
    (current : m.len = 0 ∨ m'.current = m.current) (calls : List IterCall)
    (forward : ∀ call ∈ calls, call ≠ .reset) :
    (bufferCalls convert kind).outputs m' calls = (bufferCalls convert kind).outputs m calls := by
  induction calls with
  | nil => rfl
  | cons call calls ih =>
      have rest : ∀ call ∈ calls, call ≠ .reset := fun call mem => forward call (List.mem_cons_of_mem _ mem)
      cases call with
      | reset => exact absurd rfl (forward .reset (List.mem_cons_self ..))
      | convert type =>
          have same : bufferGet convert m' type = bufferGet convert m type := by
            unfold bufferGet
            rw [len]
            rcases current with none_ | same
            · rw [if_pos none_, if_pos none_]
            · rw [same, data_, off]
          show bufferGet convert m' type :: _ = bufferGet convert m type :: _
          rw [same]
          exact congrArg _ (ih rest)
      | advance =>
          have same := advance_segment data_ off len
          simp only [Machine.outputs, bufferCalls, same]

theorem data_of_run (convert : (type : Nat) → Answer V → Answer V) (kind : BufferKind) (data : List Char)
    (calls : List IterCall) :
    KeepsData convert kind (metaBuffer kind data)
      ((bufferCalls convert kind).after (metaBuffer kind data) calls) := by
  have start : Within data (metaBuffer kind data) := within_reset kind ⟨rfl, Nat.zero_le _⟩
  have within : Within data ((bufferCalls convert kind).after (metaBuffer kind data) calls) :=
    Machine.invariant_always (P := fun m => Within data m)
      (fun m call within => within_step within call) start calls
  generalize (bufferCalls convert kind).after (metaBuffer kind data) calls = m at within
  have copied : metaBuffer kind m.data = metaBuffer kind data := by
    rw [within.same]
  refine ⟨within.same.trans start.same.symm, fun types => ?_, fun types => ?_, fun same calls' forward => ?_⟩
  · rw [start.same]
    exact buffer_ends types _ 0 _ within (Nat.lt_succ_of_le (Nat.sub_le _ _))
  · have fresh : (kind.reset m).1 = metaBuffer kind data := by
      rw [reset_data, ← copied]
      rfl
    rw [fresh]
  · have data_ : (bufferCopy kind m).data = m.data := by
      show (metaBuffer kind m.data).data = m.data
      rw [copied, start.same, within.same]
    have off : (bufferCopy kind m).off = m.off := rfl
    have len : (bufferCopy kind m).len = m.len := rfl
    have current : m.len = 0 ∨ (bufferCopy kind m).current = m.current := by
      refine same.imp id fun same => ?_
      rw [same]
      show (metaBuffer kind m.data).current = _
      rw [copied]
    exact copy_outputs data_ off len current calls' forward

end Segments

/-- In every run whose conversions stay in the text, the iterator of a text keeps it, has
    passes that end and the first one again unless it is reset behind its end, and a clone that
    goes on as it does unless a value is held or was consumed.  The iterators of an array have
    the same, and a clone that does unless the text it has is another one. -/
theorem text_iterators (conv : Conversions V) (convert : (type : Nat) → Answer V → Answer V) (text : Text)
    (sep : Option (List Char)) (data : List Char) (kind : BufferKind) (calls : List IterCall)
    (fine : (parseCalls conv).Meets FineText (iteratorString (some text.1) sep) calls) :
    (∀ answer ∈ (parseCalls conv).outputs (iteratorString (some text.1) sep) calls, answer ≠ .outside) ∧
      KeepsText conv (iteratorString (some text.1) sep)
        ((parseCalls conv).after (iteratorString (some text.1) sep) calls) ∧
      KeepsData convert kind (metaBuffer kind data)
        ((bufferCalls convert kind).after (metaBuffer kind data) calls) :=
  ⟨inside_run calls fine, text_of_run conv text sep calls, data_of_run convert kind data calls⟩

/-- Numbers of one digit, and no keys. -/
def digits : Conversions Nat :=
  ⟨fun _ text => text.head?.map fun c => (1, c.toNat - 48), fun _ _ => none⟩

/-- Two numbers. -/
def twoNumbers : Text := ⟨['1', ' ', '2'], by decide⟩

/-- The characters of the first number are asked for, then the second number. -/
theorem text_iterators_sample :
    KeepsText digits (iteratorString (some twoNumbers.1) none)
      ((parseCalls digits).after (iteratorString (some twoNumbers.1) none)
        [.convert charVector, .advance, .convert 0x79]) := by
  have fine : (parseCalls digits).Meets FineText (iteratorString (some twoNumbers.1) none)
      [.convert charVector, .advance, .convert 0x79] := by
    refine ⟨fun _ val here => .inr ?_, trivial, fun wrong => ?_, trivial⟩
    · cases here
      decide
    · cases wrong
  exact (text_iterators digits (fun _ answer => answer) twoNumbers none [] .buffer _ fine).2.1

/-- The second pass of a text whose end was found twice; a clone while the first number is held;
    the characters of a last word; and a clone at the second text of an array. -/
theorem text_iterators_wrong :
    pass (parseCalls digits) (fun _ => 0x79) 5 0
          (parseReset ((parseCalls digits).after (iteratorString (some twoNumbers.1) none) [.advance, .advance])) ≠
        pass (parseCalls digits) (fun _ => 0x79) 5 0 (iteratorString (some twoNumbers.1) none) ∧
      (parseCalls digits).outputs
          (parseClone ((parseCalls digits).after (iteratorString (some twoNumbers.1) none) [.convert 0x79]))
          [.convert 0x79] ≠
        (parseCalls digits).outputs
          ((parseCalls digits).after (iteratorString (some twoNumbers.1) none) [.convert 0x79])
          [.convert 0x79] ∧
      (parseCalls digits).outputs (iteratorString (some ['1']) none) [.convert charVector] = [.outside] ∧
      (bufferCalls (fun _ answer => answer) .buffer).outputs
          (bufferCopy .buffer ((bufferCalls (V := Nat) (fun _ answer => answer) .buffer).after
            (metaBuffer .buffer ['a', '\x00', 'b', '\x00']) [.advance])) [.convert 0x73] ≠
        (bufferCalls (V := Nat) (fun _ answer => answer) .buffer).outputs
          ((bufferCalls (V := Nat) (fun _ answer => answer) .buffer).after
            (metaBuffer .buffer ['a', '\x00', 'b', '\x00']) [.advance]) [.convert 0x73] := by
  refine ⟨by decide, by decide, by decide, by decide⟩

end Mpt.TextIter
