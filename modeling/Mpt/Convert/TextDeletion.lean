import Mpt.Convert.Deletion

/-! # Taking texts back

The deletion of `mpt_encode_string` searches backwards for separators and then keeps as
many bytes as it should have removed.
-/

namespace Mpt.Text

variable {t : Iovec}

/-- A text in pieces. -/
def textPieces (t : Iovec) (info : TextState) (m : Mem Byte) :
    List (List Byte) → TextState × Mem Byte
  | [] => (info, m)
  | src :: rest =>
      let (info, m, _) := encodeString info m (some t) (some (.bytes src))
      textPieces t info m rest

/-- Texts pushed and terminated one after the other. -/
def finishedTexts (t : Iovec) (info : TextState) (m : Mem Byte) :
    List (List (List Byte)) → TextState × Mem Byte
  | [] => (info, m)
  | srcs :: rest =>
      let (info, m) := textPieces t info m srcs
      let (info, m, _) := encodeString info m (some t) none
      finishedTexts t info m rest

/-- Texts pushed and terminated, and the part of another one. -/
def pushedTexts (t : Iovec) (info : TextState) (m : Mem Byte) (texts : List (List (List Byte)))
    (part : List (List Byte)) : TextState × Mem Byte :=
  let (info, m) := finishedTexts t info m texts
  textPieces t info m part

/-- The bytes of terminated texts. -/
def terminated (sep : Byte) (texts : List (List Byte)) : List Byte :=
  texts.flatMap (· ++ [sep])

@[simp] theorem terminated_nil (sep : Byte) : terminated sep [] = [] := rfl

@[simp] theorem terminated_cons (sep : Byte) (l : List Byte) (ls : List (List Byte)) :
    terminated sep (l :: ls) = l ++ sep :: terminated sep ls := by
  simp [terminated]

theorem terminated_append (sep : Byte) (ls ls' : List (List Byte)) :
    terminated sep (ls ++ ls') = terminated sep ls ++ terminated sep ls' := by
  simp [terminated]

theorem textPieces_eq (info : TextState) (m : Mem Byte) (srcs : List (List Byte))
    (room : info.done + srcs.flatten.length ≤ t.len) (free : info.ctx ∉ srcs.flatten) :
    textPieces t info m srcs =
      (⟨info.ctx, info.done + srcs.flatten.length⟩, m.write (t.base + info.done) srcs.flatten) := by
  induction srcs generalizing info m with
  | nil => simp [textPieces]
  | cons src rest ih =>
      simp only [List.flatten_cons, List.length_append, List.mem_append, not_or] at room free
      by_cases nothing : src = []
      · subst nothing
        have call : encodeString info m (some t) (some (.bytes [])) =
            (info, m, .error .badArgument) := by
          simp only [encodeString]
          rw [if_neg (by omega)]
          rfl
        simp only [textPieces, call]
        simpa using ih info m (by simpa using room) free.2
      · have size : 0 < src.length := List.length_pos_iff.mpr nothing
        have call : encodeString info m (some t) (some (.bytes src)) =
            (⟨info.ctx, info.done + src.length⟩, m.write (t.base + info.done) src,
              .ok src.length) := by
          have whole : src.take (t.len - info.done) = src := List.take_of_length_le (by omega)
          simp only [encodeString, Data.len]
          rw [if_neg (by omega), if_neg (by omega), if_neg (by omega), whole, if_neg free.1]
        simp only [textPieces, call]
        rw [ih ⟨info.ctx, info.done + src.length⟩ _ (by simp only; omega) free.2, List.flatten_cons,
          List.length_append, Mem.write_append]
        simp only [Nat.add_assoc]

theorem finishedTexts_eq (info : TextState) (m : Mem Byte) (texts : List (List (List Byte)))
    (room : info.done + (terminated info.ctx (texts.map List.flatten)).length ≤ t.len)
    (free : ∀ srcs ∈ texts, info.ctx ∉ srcs.flatten) :
    finishedTexts t info m texts =
      (⟨info.ctx, info.done + (terminated info.ctx (texts.map List.flatten)).length⟩,
        m.write (t.base + info.done) (terminated info.ctx (texts.map List.flatten))) := by
  induction texts generalizing info m with
  | nil => simp [finishedTexts]
  | cons srcs rest ih =>
      simp only [List.map_cons, terminated_cons, List.length_append, List.length_cons] at room
      have first := textPieces_eq (t := t) info m srcs (by omega) (free srcs List.mem_cons_self)
      have finish : encodeString ⟨info.ctx, info.done + srcs.flatten.length⟩
          (m.write (t.base + info.done) srcs.flatten) (some t) none =
          (⟨info.ctx, info.done + srcs.flatten.length + 1⟩,
            (m.write (t.base + info.done) srcs.flatten).set
              (t.base + (info.done + srcs.flatten.length)) info.ctx, .ok 0) := by
        simp only [encodeString]
        rw [if_neg (by omega), if_neg (by omega)]
      simp only [finishedTexts, first, finish]
      have others := ih ⟨info.ctx, info.done + srcs.flatten.length + 1⟩
        ((m.write (t.base + info.done) srcs.flatten).set
          (t.base + (info.done + srcs.flatten.length)) info.ctx) (by simp only; omega)
        fun l inside => free l (List.mem_cons_of_mem _ inside)
      rw [others]
      simp only [List.map_cons, terminated_cons, List.length_append, List.length_cons]
      refine Prod.ext ?_ ?_
      · simp only [TextState.mk.injEq, true_and]
        omega
      · rw [Mem.write_append, Mem.write_cons]
        simp only [Nat.add_assoc]

/-- The last separator of a list. -/
theorem lastIndex_append (sep : Byte) (front rest : List Byte) (free : sep ∉ rest) :
    lastIndex sep (front ++ sep :: rest) = some front.length := by
  have none : rest.reverse.findIdx? (fun x => decide (x = sep)) = none := by
    rw [List.findIdx?_eq_none_iff]
    intro x inside
    apply decide_eq_false
    rintro rfl
    exact free (List.mem_reverse.mp inside)
  unfold lastIndex
  rw [List.reverse_append, List.reverse_cons, List.append_assoc, List.findIdx?_append, none]
  simp only [Option.none_or, List.singleton_append, List.findIdx?_cons, decide_true, if_true,
    Option.map_some, List.length_append, List.length_cons, List.length_reverse]
  congr 1
  omega

theorem lastIndex_none (sep : Byte) (l : List Byte) (free : sep ∉ l) : lastIndex sep l = none := by
  unfold lastIndex
  rw [Option.map_eq_none_iff, List.findIdx?_eq_none_iff]
  intro x inside
  apply decide_eq_false
  rintro rfl
  exact free (List.mem_reverse.mp inside)

/-- The end of the first `j` texts. -/
def ends (sep : Byte) (ls : List (List Byte)) (j : Nat) : Nat := (terminated sep (ls.take j)).length

theorem take_succ_terminated {sep : Byte} {ls : List (List Byte)} {j : Nat} (lt : j < ls.length) :
    terminated sep (ls.take (j + 1)) = terminated sep (ls.take j) ++ (ls[j] ++ [sep]) := by
  rw [List.take_succ_eq_append_getElem lt, terminated_append]
  simp [terminated]

/-- Going back over `n` separators, from a place behind the first `j` texts. -/
theorem dropTexts_eq {sep : Byte} {ls : List (List Byte)} (free : ∀ l ∈ ls, sep ∉ l) (l : List Byte)
    (n : Nat) {j off : Nat} (le : j ≤ ls.length) {rest : List Byte}
    (front : l.take off = terminated sep (ls.take j) ++ rest) (clear : sep ∉ rest) :
    dropTexts sep l (n + 1) off =
      if n < j then some (ends sep ls (j - n) - 1) else none := by
  induction n generalizing j off rest with
  | zero =>
      cases j with
      | zero =>
          unfold dropTexts
          rw [front, List.take_zero, terminated_nil, List.nil_append, lastIndex_none sep rest clear]
          rfl
      | succ j =>
          unfold dropTexts
          rw [front, take_succ_terminated le, List.append_assoc, List.append_assoc,
            List.singleton_append, ← List.append_assoc, lastIndex_append sep _ rest clear]
          simp only [dropTexts, Nat.zero_lt_succ, if_true, ends, Nat.sub_zero]
          rw [take_succ_terminated le]
          simp
  | succ n ih =>
      cases j with
      | zero =>
          unfold dropTexts
          rw [front, List.take_zero, terminated_nil, List.nil_append, lastIndex_none sep rest clear]
          rfl
      | succ j =>
          rw [dropTexts, front, take_succ_terminated le, List.append_assoc, List.append_assoc,
            List.singleton_append, ← List.append_assoc, lastIndex_append sep _ rest clear]
          simp only
          have before : l.take (terminated sep (ls.take j) ++ ls[j]).length =
              terminated sep (ls.take j) ++ ls[j] := by
            have whole := congrArg (List.take (terminated sep (ls.take j) ++ ls[j]).length) front
            rw [take_succ_terminated le, List.take_take] at whole
            rw [← List.append_assoc, List.append_assoc (terminated sep (ls.take j) ++ ls[j]),
              List.take_left] at whole
            have long := congrArg List.length front
            rw [take_succ_terminated le] at long
            simp only [List.length_take, List.length_append, List.length_singleton] at long
            rw [Nat.min_eq_left (by simp only [List.length_append]; omega)] at whole
            exact whole
          rw [ih (Nat.le_of_succ_le le) before (free _ (List.getElem_mem _))]
          simp only [Nat.add_lt_add_iff_right, Nat.add_sub_add_right]

/-- The answer to a deletion is success, and state and bytes are those of the run `kept`. -/
structure Removed (base : Nat) (kept : TextState × Mem Byte)
    (r : TextState × Mem Byte × Except Error Nat) : Prop where
  success : ∃ n, r.2.2 = .ok n
  state : r.1 = kept.1
  bytes : r.2.1.read base r.1.done = kept.2.read base kept.1.done

/-- The search leaves out the last byte if it is zero: without a text in progress that is
    the separator of the last text. -/
def skip (sep : Byte) (part : List Byte) : Nat := if part = [] ∧ sep = 0 then 1 else 0

theorem ends_pos {sep : Byte} {ls : List (List Byte)} {j : Nat} (pos : 0 < j) (le : j ≤ ls.length) :
    0 < ends sep ls j := by
  obtain ⟨i, rfl⟩ := Nat.exists_eq_succ_of_ne_zero (Nat.pos_iff_ne_zero.mp pos)
  unfold ends
  rw [take_succ_terminated le]
  simp only [List.length_append, List.length_singleton]
  omega

theorem ends_le (sep : Byte) (ls : List (List Byte)) (j : Nat) :
    ends sep ls j ≤ (terminated sep ls).length := by
  have whole := congrArg List.length (terminated_append sep (ls.take j) (ls.drop j))
  rw [List.take_append_drop, List.length_append] at whole
  unfold ends
  omega

/-- Where the search starts. -/
theorem search_start {sep : Byte} {ls : List (List Byte)} {part : List Byte}
    (free : ∀ l ∈ ls, sep ∉ l) (clear : sep ∉ part) (some : ls ≠ [] ∨ part ≠ []) {l : List Byte}
    (content : l = terminated sep ls ++ part) :
    ∃ rest, l.take (if l.getLast? = Option.some 0 then l.length - 1 else l.length) =
        terminated sep (ls.take (ls.length - skip sep part)) ++ rest ∧ sep ∉ rest := by
  by_cases none : part = []
  · subst none
    have filled : ls ≠ [] := some.resolve_right fun h => h rfl
    have size := List.length_pos_iff.mpr filled
    obtain ⟨j, last⟩ := Nat.exists_eq_succ_of_ne_zero (Nat.pos_iff_ne_zero.mp size)
    have whole : terminated sep ls = terminated sep (ls.take j) ++ (ls[j] ++ [sep]) := by
      rw [← take_succ_terminated (by omega), List.take_of_length_le (by omega)]
    rw [List.append_nil] at content
    have isLast : l.getLast? = Option.some sep := by
      rw [content, whole, ← List.append_assoc, List.getLast?_concat]
    rw [isLast]
    by_cases zero : sep = 0
    · subst zero
      rw [if_pos rfl, skip, if_pos ⟨rfl, rfl⟩]
      refine ⟨ls[j], ?_, free _ (List.getElem_mem _)⟩
      rw [content, whole, show ls.length - 1 = j by omega, ← List.append_assoc,
        List.length_append, List.length_singleton, Nat.add_sub_cancel, List.take_left]
    · rw [if_neg (fun h => zero (Option.some.inj h)), skip, if_neg (fun h => zero h.2)]
      exact ⟨[], by rw [content]; simp, by simp⟩
  · have all : ls.take (ls.length - skip sep part) = ls := by
      rw [skip, if_neg (fun h => none h.1), Nat.sub_zero, List.take_length]
    rw [all]
    by_cases zero : l.getLast? = Option.some 0
    · rw [if_pos zero]
      refine ⟨part.dropLast, ?_, fun inside => clear (List.dropLast_subset _ inside)⟩
      rw [← List.dropLast_eq_take, content, List.dropLast_append_of_ne_nil none]
    · rw [if_neg zero, List.take_length]
      exact ⟨part, content, clear⟩

section Pushed

variable (m : Mem Byte) {sep : Byte} {texts : List (List (List Byte))}
  (free : ∀ srcs ∈ texts, sep ∉ srcs.flatten)

include free

/-- Texts that fit are stored as they are. -/
theorem pushedTexts_eq {part : List (List Byte)} (clear : sep ∉ part.flatten)
    (room : (terminated sep (texts.map List.flatten)).length + part.flatten.length ≤ t.len) :
    pushedTexts t ⟨sep, 0⟩ m texts part =
      (⟨sep, (terminated sep (texts.map List.flatten) ++ part.flatten).length⟩,
        m.write t.base (terminated sep (texts.map List.flatten) ++ part.flatten)) := by
  simp only [pushedTexts]
  rw [finishedTexts_eq ⟨sep, 0⟩ m texts (by simp only; omega) free,
    textPieces_eq _ _ part (by simp only; omega) clear]
  simp only [Nat.zero_add, Nat.add_zero, List.length_append, Mem.write_append]

theorem finishedTexts_take (room : (terminated sep (texts.map List.flatten)).length ≤ t.len) (i : Nat) :
    finishedTexts t ⟨sep, 0⟩ m (texts.take i) =
      (⟨sep, ends sep (texts.map List.flatten) i⟩,
        m.write t.base (terminated sep ((texts.map List.flatten).take i))) := by
  have short := ends_le sep (texts.map List.flatten) i
  unfold ends at short
  rw [finishedTexts_eq ⟨sep, 0⟩ m (texts.take i)
    (by simp only [List.map_take]; omega) fun srcs inside => free srcs (List.mem_of_mem_take inside)]
  simp only [Nat.zero_add, Nat.add_zero, List.map_take, ends]

end Pushed

theorem terminated_prefix (sep : Byte) (ls : List (List Byte)) (part : List Byte) (i : Nat) :
    terminated sep (ls.take i) <+: terminated sep ls ++ part := by
  conv_rhs => rw [← List.take_append_drop i ls, terminated_append, List.append_assoc]
  exact List.prefix_append _ _

theorem skip_le {sep : Byte} {ls : List (List Byte)} {part : List Byte} (some : ls ≠ [] ∨ part ≠ []) :
    skip sep part ≤ ls.length := by
  unfold skip
  split
  · rename_i atZero
    have filled := some.resolve_right fun h => h atZero.1
    have := List.length_pos_iff.mpr filled
    omega
  · exact Nat.zero_le _

/-- What a deletion answers: the search stops at the end of a text, and as much is removed as
    lies in front of it. -/
theorem deletion_eq (m : Mem Byte) {sep : Byte} {ls : List (List Byte)} {part l : List Byte}
    (free : ∀ l ∈ ls, sep ∉ l) (clear : sep ∉ part) (some : ls ≠ [] ∨ part ≠ [])
    (content : l = terminated sep ls ++ part) (fits : l.length ≤ t.len) (k : Nat) :
    encodeString ⟨sep, l.length⟩ (m.write t.base l) (Option.some t) (Option.some (.null (k + 1))) =
      if k < ls.length - skip sep part then
        (⟨sep, l.length - (ends sep ls (ls.length - skip sep part - k) - 1)⟩, m.write t.base l,
          .ok (ends sep ls (ls.length - skip sep part - k) - 1))
      else
        (⟨sep, l.length⟩, m.write t.base l, .error .missingData) := by
  have filled : l.length ≠ 0 := by
    rw [content, List.length_append]
    rcases some with some | some
    · have pos : 0 < ends sep ls ls.length :=
        ends_pos (List.length_pos_iff.mpr some) (Nat.le_refl _)
      have := ends_le sep ls ls.length
      omega
    · have := List.length_pos_iff.mpr some
      omega
  obtain ⟨rest, front, noSep⟩ := search_start free clear some content
  have search := dropTexts_eq free l k (Nat.sub_le _ _) front noSep
  simp only [encodeString, Data.len]
  rw [if_neg (by omega), if_neg (Nat.succ_ne_zero k), if_neg filled, Mem.read_write_self, search]
  by_cases found : k < ls.length - skip sep part
  · simp only [if_pos found]
  · simp only [if_neg found]

/-- A deletion of texts works exactly when as many bytes have to go as have to stay,
    counted from the separator that the search stops at. -/
theorem deletes_texts (t : Iovec) (m : Mem Byte) (sep : Byte) (texts : List (List (List Byte)))
    (part : List (List Byte)) (n : Nat) (free : ∀ srcs ∈ texts, sep ∉ srcs.flatten)
    (clear : sep ∉ part.flatten)
    (room : (terminated sep (texts.map List.flatten)).length + part.flatten.length ≤ t.len)
    (le : n ≤ Cobs.Deletion.count texts part) :
    let s := pushedTexts t ⟨sep, 0⟩ m texts part
    Removed t.base (finishedTexts t ⟨sep, 0⟩ m (texts.take (Cobs.Deletion.count texts part - n)))
        (encodeString s.1 s.2 (some t) (some (.null n))) ↔
      n ≠ 0 ∧ n + skip sep part.flatten ≤ texts.length ∧
        s.1.done + 1 =
          ends sep (texts.map List.flatten) (texts.length + 1 - n - skip sep part.flatten) +
          ends sep (texts.map List.flatten) (Cobs.Deletion.count texts part - n) := by
  intro s
  have free' : ∀ l ∈ texts.map List.flatten, sep ∉ l := by
    intro l inside
    obtain ⟨srcs, mem, rfl⟩ := List.mem_map.mp inside
    exact free srcs mem
  have state : s = _ := pushedTexts_eq m free clear room
  have kept := finishedTexts_take (t := t) m free (by omega)
  have total : (terminated sep (texts.map List.flatten) ++ part.flatten).length ≤ t.len := by
    rw [List.length_append]
    exact room
  by_cases nonzero : n = 0
  · subst nonzero
    refine iff_of_false (fun removed => ?_) (fun nonzero => nonzero.1 rfl)
    obtain ⟨r, success⟩ := removed.success
    rw [state] at success
    simp only [encodeString] at success
    rw [if_neg (by omega)] at success
    cases success
  have some : texts.map List.flatten ≠ [] ∨ part.flatten ≠ [] := by
    by_contra nothing
    simp only [ne_eq, List.map_eq_nil_iff, not_or, not_not] at nothing
    rw [Cobs.Deletion.count, nothing.1, if_pos nothing.2] at le
    exact nonzero (Nat.le_zero.mp le)
  have number : (texts.map List.flatten).length = texts.length := List.length_map _
  have skipped : skip sep part.flatten ≤ texts.length := number ▸ skip_le some
  obtain ⟨k, rfl⟩ : ∃ k, n = k + 1 := Nat.exists_eq_succ_of_ne_zero nonzero
  have call := deletion_eq (t := t) m free' clear some rfl total k
  have prefix_ := terminated_prefix sep (texts.map List.flatten) part.flatten
    (Cobs.Deletion.count texts part - (k + 1))
  have longer : (terminated sep (texts.map List.flatten)).length ≤
      (terminated sep (texts.map List.flatten) ++ part.flatten).length := by
    rw [List.length_append]
    exact Nat.le_add_right _ _
  rw [state, kept, call, number]
  generalize terminated sep (texts.map List.flatten) ++ part.flatten = l at total prefix_ longer ⊢
  by_cases found : k < texts.length - skip sep part.flatten
  · have index : texts.length + 1 - (k + 1) - skip sep part.flatten =
        texts.length - skip sep part.flatten - k := by omega
    have pos : 0 < ends sep (texts.map List.flatten)
        (texts.length - skip sep part.flatten - k) := ends_pos (by omega) (by omega)
    have bound := ends_le sep (texts.map List.flatten)
      (texts.length - skip sep part.flatten - k)
    rw [if_pos found, index]
    constructor
    · intro removed
      have same := congrArg TextState.done removed.state
      simp only at same
      exact ⟨nonzero, by omega, by simp only; omega⟩
    · rintro ⟨_, _, same⟩
      simp only at same
      have done : l.length - (ends sep (texts.map List.flatten)
          (texts.length - skip sep part.flatten - k) - 1) =
            ends sep (texts.map List.flatten) (Cobs.Deletion.count texts part - (k + 1)) := by omega
      refine ⟨⟨_, rfl⟩, by rw [done], ?_⟩
      simp only [done]
      unfold ends
      rw [Mem.read_write_self, ← Nat.min_eq_left prefix_.length_le, ← Mem.take_read,
        Mem.read_write_self]
      exact (List.prefix_iff_eq_take.mp prefix_).symm
  · rw [if_neg found]
    constructor
    · intro removed
      obtain ⟨r, success⟩ := removed.success
      cases success
    · rintro ⟨_, fits, _⟩
      omega

end Mpt.Text

namespace Mpt

open Cobs.Deletion (count)

/-- When the deletion of the last `n` messages works: for a COBS encoder if and only if
    it is for one message, in progress and without a finished block; for the text encoder
    if and only if the search stops at a separator that leaves the right number. -/
theorem deletions_work_when (t : Iovec) (m : Mem Byte) (msgs : List (List (List Byte)))
    (part : List (List Byte)) (n : Nat) :
    (∀ c : Cobs.Codec, t.base ≠ 0 → t.len ≤ t.base →
        Cobs.Deletion.space c.variant msgs + (part.flatten.length +
          part.flatten.length / (c.variant.maxlen - 1) + 2) ≤ t.len →
        n ≤ count msgs part →
        let s := Cobs.Deletion.pushed c t .init m msgs part
        (∀ m' : Mem Byte, (∀ a, t.base ≤ a → m' a = s.2 a) →
          Cobs.Deletion.Removed t.base
            (Cobs.Deletion.finished c t .init m (msgs.take (count msgs part - n)))
            (c.encoder s.1 m' (some t) (some (.null n)))) ↔
          n = 1 ∧ part.flatten ≠ [] ∧
            s.1.done = (Cobs.Deletion.finished c t .init m msgs).1.done) ∧
      ∀ sep : Byte, (∀ srcs ∈ msgs, sep ∉ srcs.flatten) → sep ∉ part.flatten →
        (Text.terminated sep (msgs.map List.flatten)).length + part.flatten.length ≤ t.len →
        n ≤ count msgs part →
        let s := Text.pushedTexts t ⟨sep, 0⟩ m msgs part
        Text.Removed t.base
            (Text.finishedTexts t ⟨sep, 0⟩ m (msgs.take (count msgs part - n)))
            (Text.encodeString s.1 s.2 (some t) (some (.null n))) ↔
          n ≠ 0 ∧ n + Text.skip sep part.flatten ≤ msgs.length ∧
            s.1.done + 1 =
              Text.ends sep (msgs.map List.flatten)
                (msgs.length + 1 - n - Text.skip sep part.flatten) +
              Text.ends sep (msgs.map List.flatten) (count msgs part - n) := by
  constructor
  · intro c target apart room _
    exact Cobs.Deletion.deletes_open_message c t m msgs part n target apart room
  · intro sep free clear room le
    exact Text.deletes_texts t m sep msgs part n free clear room le

/-- A message in progress is taken back, and with it the first of two texts of the right
    sizes. -/
theorem deletions_of_last :
    (∀ m' : Mem Byte, (∀ a, 100 ≤ a →
        m' a = (Cobs.Deletion.pushed .cobs ⟨100, 100⟩ .init (fun _ => 7) [[[1]]] [[2]]).2 a) →
      Cobs.Deletion.Removed 100
        (Cobs.Deletion.finished .cobs ⟨100, 100⟩ .init (fun _ => 7) [[[1]]])
        (Cobs.Codec.cobs.encoder
          (Cobs.Deletion.pushed .cobs ⟨100, 100⟩ .init (fun _ => 7) [[[1]]] [[2]]).1 m'
          (some ⟨100, 100⟩) (some (.null 1)))) ∧
      Text.Removed 100 (Text.finishedTexts ⟨100, 100⟩ ⟨0, 0⟩ (fun _ => 7) [[[1, 2]]])
        (Text.encodeString (Text.pushedTexts ⟨100, 100⟩ ⟨0, 0⟩ (fun _ => 7) [[[1, 2]], [[3]]] []).1
          (Text.pushedTexts ⟨100, 100⟩ ⟨0, 0⟩ (fun _ => 7) [[[1, 2]], [[3]]] []).2
          (some ⟨100, 100⟩) (some (.null 1))) := by
  constructor
  · exact ((deletions_work_when ⟨100, 100⟩ (fun _ => 7) [[[1]]] [[2]] 1).1 .cobs (by decide)
      (by decide) (by decide) (by decide)).mpr ⟨rfl, by decide, by decide⟩
  · exact ((deletions_work_when ⟨100, 100⟩ (fun _ => 7) [[[1, 2]], [[3]]] [] 1).2 0 (by decide)
      (by decide) (by decide) (by decide)).mpr ⟨by decide, by decide, by decide⟩

/-- The last of two messages: COBS finds no delimiter at the null pointer, and of the four
    bytes of the texts three are kept instead of two. -/
theorem last_message_not_removed :
    (∃ e : Error, (Cobs.Codec.cobs.encoder (Cobs.Deletion.pushed .cobs ⟨100, 100⟩ .init (fun _ => 7)
        [[[1]], [[2]]] []).1 (Cobs.Deletion.pushed .cobs ⟨100, 100⟩ .init (fun _ => 7)
        [[[1]], [[2]]] []).2 (some ⟨100, 100⟩) (some (.null 1))).2.2 = .error e) ∧
      (Text.finishedTexts ⟨100, 100⟩ ⟨0, 0⟩ (fun _ => 7) [[[1]]]).1.done = 2 ∧
      (Text.encodeString (Text.finishedTexts ⟨100, 100⟩ ⟨0, 0⟩ (fun _ => 7) [[[1]], [[2]]]).1
        (Text.finishedTexts ⟨100, 100⟩ ⟨0, 0⟩ (fun _ => 7) [[[1]], [[2]]]).2
        (some ⟨100, 100⟩) (some (.null 1))).1.done = 3 := by
  refine ⟨⟨.badValue, ?_⟩, by decide, by decide⟩
  decide

end Mpt
