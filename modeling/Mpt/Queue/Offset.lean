import Mpt.Queue.Align
import Mpt.Queue.Crop

/-! # Aligning a queue to an offset

`mpt_queue_align` moves content in one piece.  Where it has to wrap around to start at
the offset, its two parts are brought into order, but the offset is not set.
-/

namespace Mpt.Queue

variable {q : Queue} {pos : Nat}

/-- Both parts of a queue that wraps around, brought into order at the start of the storage. -/
def joined (q : Queue) : Queue :=
  let pv := q.max - q.len
  let m := if pv ≠ 0 then
      q.mem.move (q.base + q.off - pv) (q.base + q.off) (q.max - q.off) else q.mem
  { q with mem := rotate m q.base (q.off - pv) q.len, off := 0 }

/-- The queue that `mpt_queue_align` finds, or makes, in one piece. -/
def piece (q : Queue) : Queue := if q.frag then q.joined else q

/-- The blocks that `mpt_queue_align` moves. -/
def alignMoves (q : Queue) (pos : Nat) : List BlockMove :=
  let pv := q.max - q.len
  if q.max < pos ∨ q.len = 0 ∨ q.base = 0 then
    []
  else
    (if q.frag ∧ pv ≠ 0 then
        [⟨q.base + q.off - pv, q.base + q.off, q.max - q.off⟩] else []) ++
      if pos = q.piece.off then [] else q.piece.placeMoves pos

/-- The content stays, starts at the offset, and no move leaves the storage. -/
def Aligns (q : Queue) (pos : Nat) : Prop :=
  (q.align pos).content = q.content ∧
    (q.len ≠ 0 → pos < q.max → (q.align pos).off = pos) ∧
    ∀ b ∈ q.alignMoves pos, q.Inside b

/-- Where content in one piece starts, or is brought to first. -/
def origin (q : Queue) : Nat := if q.frag then 0 else q.off

/-- Content that would end with the storage repeats itself after `off` bytes. -/
def Repeats (q : Queue) (off : Nat) : Prop :=
  off + q.len = q.max ∧ q.content.drop off = q.content.take (q.len - off)

theorem align_piece (pos : Nat) (le : pos ≤ q.max) (some : q.len ≠ 0) (base : q.base ≠ 0) :
    q.align pos = if pos = q.piece.off then q.piece else q.piece.place pos := by
  unfold align piece
  rw [if_neg (by omega), if_neg some, if_neg base]
  by_cases broken : q.frag
  · rw [if_pos broken, if_pos broken]
    rfl
  · rw [if_neg broken, if_neg broken]

theorem piece_spec (v : q.Valid) (some : q.len ≠ 0) (base : q.base ≠ 0) :
    q.piece.off + q.len ≤ q.max ∧ q.piece.off = q.origin ∧ q.piece.base = q.base ∧ q.piece.max = q.max ∧
      q.piece.len = q.len ∧ q.piece.content = q.content := by
  have lenLe := v.len_le
  have offLe := v.off_le
  by_cases broken : q.frag
  · obtain ⟨_, _, _, _, _, content⟩ := align_zero v
    have start : q.align 0 = q.piece := by
      rw [align_piece 0 (Nat.zero_le _) some base, if_pos]
      unfold piece
      rw [if_pos broken]
      rfl
    rw [start] at content
    unfold piece origin at *
    rw [if_pos broken] at *
    rw [if_pos broken]
    refine ⟨?_, rfl, rfl, rfl, rfl, content⟩
    simp only [joined]
    omega
  · unfold piece origin
    rw [if_neg broken, if_neg broken]
    refine ⟨?_, rfl, rfl, rfl, rfl, rfl⟩
    simp only [frag, decide_eq_true_eq, Nat.not_lt] at broken
    omega

/-- Content in one piece is moved as a whole where it fits. -/
theorem place_fits (whole : q.off + q.len ≤ q.max) (fits : pos ≤ q.max - q.len) :
    (q.place pos).content = q.content ∧ (q.place pos).off = pos ∧
      ∀ b ∈ q.placeMoves pos, q.Inside b := by
  unfold place placeMoves
  rw [if_pos fits, if_pos fits]
  refine ⟨?_, rfl, ?_⟩
  · apply List.ext_getElem
    · simp
    · intro i hi _
      rw [length_content] at hi
      rw [getElem_content, getElem_content]
      simp only at hi ⊢
      rw [Nat.mod_eq_of_lt (by omega), Nat.mod_eq_of_lt (by omega)]
      simp only [applyMoves, List.foldl_cons, List.foldl_nil]
      rw [← Nat.add_assoc, ← Nat.add_assoc]
      exact Mem.move_inside _ _ _ hi
  · intro b mem
    obtain rfl := List.mem_singleton.mp mem
    refine .inr ?_
    simp only
    omega

/-- The offset of content that does not fit is left as it is. -/
theorem place_off (room : q.max - q.len < pos) : (q.place pos).off = q.off := by
  unfold place
  rw [if_neg (by omega)]

/-- An offset too far behind the content makes the size of a part wrap around. -/
theorem place_outside (small : q.max < 2 ^ 64) (le : pos ≤ q.max) (room : q.max - q.len < pos)
    (behind : q.off + q.len < pos) :
    ¬ ∀ b ∈ q.placeMoves pos, q.Inside b := by
  intro inside
  unfold placeMoves at inside
  have pv : sizeSub pos q.off = pos - q.off := if_pos (by omega)
  have rest : sizeSub q.len (pos - q.off) = q.len + 2 ^ 64 - (pos - q.off) := if_neg (by omega)
  rw [if_neg (by omega)] at inside
  simp only [pv, rest] at inside
  generalize high_eq : sizeSub q.max (q.len + 2 ^ 64 - (pos - q.off)) = high at inside
  have apart : high ≠ q.off + (pos - q.off) := by
    rw [← high_eq]
    unfold sizeSub
    split <;> omega
  rw [if_pos apart] at inside
  have second := inside ⟨_, _, _⟩ (List.mem_append_right _ (List.mem_singleton_self _))
  unfold Inside at second
  simp only at second
  omega

/-- An offset at the end of the storage copies the content to its start. -/
theorem place_end (base : q.base ≠ 0) (some : q.len ≠ 0) (whole : q.off + q.len = q.max) :
    (q.place q.max).content = q.content ↔
      q.content.drop q.off = q.content.take (q.len - q.off) := by
  have pv : sizeSub q.max q.off = q.len := by
    unfold sizeSub
    rw [if_pos (by omega)]
    omega
  have high : sizeSub q.max (sizeSub q.len q.len) = q.off + q.len := by
    unfold sizeSub
    rw [if_pos (Nat.le_refl _), if_pos (by omega)]
    omega
  have kept : rotate q.mem (q.base + q.off) q.len q.len = q.mem := by
    funext a
    rw [rotate_eq _ (by omega) (Nat.le_refl _), Nat.sub_self]
    simp only [rotated]
    split_ifs <;> first | rfl | omega
  have copied : q.place q.max = { q with mem := q.mem.move q.base (q.base + q.off) q.len } := by
    unfold place placeMoves
    simp only [pv, high, kept]
    rw [if_neg (by omega), if_neg (by omega), if_neg (not_not.mpr rfl), List.append_nil]
    by_cases start : q.off = 0
    · rw [if_neg (not_not.mpr start), start, Nat.add_zero, Mem.move, Mem.write_read]
      rfl
    · rw [if_pos start]
      rfl
  have parts : (q.place q.max).content =
      q.content.drop q.off ++ q.content.drop (q.len - q.off) := by
    rw [copied]
    apply List.ext_getElem
    · simp
    · intro i hi _
      rw [length_content] at hi
      simp only at hi
      refine (getElem_content _ i _).trans ?_
      simp only
      rw [Nat.mod_eq_of_lt (by omega)]
      by_cases copy : q.off + i < q.len
      · rw [List.getElem_append_left (by simp; omega), List.getElem_drop, getElem_content,
          Mem.move_inside _ _ _ copy, Nat.mod_eq_of_lt (by omega), Nat.add_assoc]
      · rw [List.getElem_append_right (by simp; omega), List.getElem_drop, getElem_content,
          Mem.move_outside _ (by omega), Nat.mod_eq_of_lt (by simp; omega)]
        congr 2
        simp only [List.length_drop, length_content]
        omega
  rw [parts]
  nth_rewrite 3 [← List.take_append_drop (q.len - q.off) q.content]
  exact List.append_left_inj _

/-- The move that copies the content, and none for what would come behind it. -/
theorem place_end_inside (some : q.len ≠ 0) (whole : q.off + q.len = q.max) :
    ∀ b ∈ q.placeMoves q.max, q.Inside b := by
  have pv : sizeSub q.max q.off = q.len := by
    unfold sizeSub
    rw [if_pos (by omega)]
    omega
  have high : sizeSub q.max (sizeSub q.len q.len) = q.off + q.len := by
    unfold sizeSub
    rw [if_pos (Nat.le_refl _), if_pos (by omega)]
    omega
  unfold placeMoves
  simp only [pv, high]
  rw [if_neg (by omega), if_neg (not_not.mpr rfl), List.append_nil]
  intro b mem
  split at mem
  · obtain rfl := List.mem_singleton.mp mem
    refine .inr ?_
    simp only
    omega
  · cases mem

/-- Content in one piece is aligned where it fits, where it already starts there, or to the
    end of the storage if it ends there and repeats itself. -/
theorem piece_aligns (pos : Nat) (base : q.base ≠ 0) (some : q.len ≠ 0) (small : q.max < 2 ^ 64)
    (whole : q.off + q.len ≤ q.max) (le : pos ≤ q.max) (apart : pos ≠ q.off) :
    ((q.place pos).content = q.content ∧ (pos < q.max → (q.place pos).off = pos) ∧
      ∀ b ∈ q.placeMoves pos, q.Inside b) ↔
      pos ≤ q.max - q.len ∨ pos = q.max ∧ q.Repeats q.off := by
  by_cases fits : pos ≤ q.max - q.len
  · obtain ⟨content, off, inside⟩ := place_fits whole fits
    exact iff_of_true ⟨content, fun _ => off, inside⟩ (.inl fits)
  have room := Nat.lt_of_not_le fits
  rcases Nat.lt_or_eq_of_le le with before | rfl
  · refine iff_of_false ?_ (by omega)
    rintro ⟨_, off, _⟩
    exact apart ((off before).symm.trans (place_off room))
  rcases Nat.lt_or_eq_of_le whole with behind | ends
  · refine iff_of_false ?_ ?_
    · rintro ⟨_, _, inside⟩
      exact place_outside small le room behind inside
    · rintro (less | ⟨_, ends, _⟩) <;> omega
  · rw [place_end base some ends]
    constructor
    · rintro ⟨repeats, _, _⟩
      exact .inr ⟨rfl, ends, repeats⟩
    · rintro (less | ⟨_, _, repeats⟩)
      · omega
      · exact ⟨repeats, fun less => absurd less (Nat.lt_irrefl _), place_end_inside some ends⟩

/-- Bringing both parts together moves bytes inside the storage. -/
theorem joining_inside (v : q.Valid) :
    ∀ b ∈ (if q.frag ∧ q.max - q.len ≠ 0 then
      [(⟨q.base + q.off - (q.max - q.len), q.base + q.off, q.max - q.off⟩ : BlockMove)] else []),
      q.Inside b := by
  have offLe := v.off_le
  intro b mem
  split at mem
  · next broken =>
      obtain rfl := List.mem_singleton.mp mem
      have before := broken.1
      simp only [frag, decide_eq_true_eq] at before
      refine .inr ?_
      simp only
      omega
  · cases mem

/-- `mpt_queue_align` keeps the content and sets the offset if and only if the content, once
    in one piece, starts there, fits behind it, or is copied onto itself. -/
theorem aligns_iff (v : q.Valid) (stored : q.base ≠ 0 ∨ q.max = 0) (small : q.max < 2 ^ 64)
    (pos : Nat) (le : pos ≤ q.max) :
    q.Aligns pos ↔ q.len = 0 ∨ pos = q.origin ∨ pos ≤ q.max - q.len ∨
      pos = q.max ∧ q.Repeats q.origin := by
  have lenLe := v.len_le
  by_cases none : q.len = 0
  · refine iff_of_true ⟨?_, fun some => absurd none some, ?_⟩ (.inl none)
    · unfold align
      rw [if_neg (by omega), if_pos none]
      simp [content, none]
    · unfold alignMoves
      rw [if_pos (.inr (.inl none))]
      exact fun _ mem => absurd mem List.not_mem_nil
  have base : q.base ≠ 0 := stored.resolve_right (by omega)
  obtain ⟨whole, origin, base', max, len, content⟩ := piece_spec v none base
  have clear : ¬ (q.max < pos ∨ q.len = 0 ∨ q.base = 0) := by omega
  have moves : q.alignMoves pos = _ := if_neg clear
  unfold Aligns
  rw [align_piece pos le none base, moves, origin]
  by_cases placed : pos = q.origin
  · rw [if_pos placed, if_pos placed, List.append_nil]
    exact iff_of_true ⟨content, fun _ _ => origin.trans placed.symm, joining_inside v⟩
      (.inr (.inl placed))
  · rw [if_neg placed, if_neg placed]
    have placing := piece_aligns (q := q.piece) pos (by rwa [base']) (by rwa [len])
      (by rwa [max]) (by rwa [max, len]) (by rwa [max]) (by rwa [origin])
    have same : ∀ b, q.piece.Inside b ↔ q.Inside b := by
      intro b
      unfold Inside
      rw [base', max]
    unfold Repeats at *
    simp only [same, max, len, content, origin] at placing
    constructor
    · rintro ⟨kept, off, inside⟩
      exact .inr (.inr (placing.mp ⟨kept, off none, fun b mem =>
        inside b (List.mem_append_right _ mem)⟩))
    · rintro (empty | start | fits)
      · exact absurd empty none
      · exact absurd start placed
      · obtain ⟨kept, off, inside⟩ := placing.mpr fits
        refine ⟨kept, fun _ => off, fun b mem => ?_⟩
        rcases List.mem_append.mp mem with first | second
        · exact joining_inside v b first
        · exact inside b second

theorem aligns_behind : (fourBytes 3 2).Aligns 2 :=
  (aligns_iff (q := fourBytes 3 2) ⟨by decide, by decide⟩ (.inl (by decide)) (by decide) 2
    (by decide)).mpr (.inr (.inr (.inl (by decide))))

/-- Three of four bytes cannot start at offset 2 in one piece, and are left at 0 in another
    order. -/
theorem unaligned : ((fourBytes 0 3).align 2).off = 0 ∧
    ((fourBytes 0 3).align 2).content = [18, 16, 17] ∧ ¬ (fourBytes 0 3).Aligns 2 := by
  refine ⟨by decide, by decide, ?_⟩
  rintro ⟨_, off, _⟩
  exact absurd (off (by decide) (by decide)) (by decide)

end Mpt.Queue
