import Mpt.Queue.Ends

/-! # Removing a segment from the middle of a queue

`mpt_queue_crop` closes the gap by moving the bytes behind it.  Where the gap starts in
the upper part of a queue that wraps around, the sizes of the moves only fit if the
bytes that follow are exactly as many as the upper part has room for.
-/

namespace Mpt.Queue

variable {q : Queue} {pos len : Nat}

/-- The blocks that `mpt_queue_crop` moves. -/
def removalMoves (q : Queue) (pos len : Nat) : List BlockMove :=
  let (addr, low) := q.data
  let high := q.len - low
  if pos = 0 then
    []
  else if pos < low then
    (q.cropMoves (addr + pos) (low - pos) high len).1
  else
    (q.cropMoves (q.base + (pos - low)) (high - (pos - low)) 0 len).1

theorem crop_moves {q' : Queue} {ret : Nat} (crop : q.crop pos len = .ok (q', ret)) :
    q'.mem = applyMoves q.mem (q.removalMoves pos len) := by
  revert crop
  unfold Queue.crop removalMoves cropMove
  simp only
  split_ifs <;> intro eq <;> cases eq <;> rfl

/-- A block move that stays in the storage of the queue. -/
def Inside (q : Queue) (v : BlockMove) : Prop :=
  v.size = 0 ∨ q.base ≤ v.dst ∧ v.dst + v.size ≤ q.base + q.max ∧
    q.base ≤ v.src ∧ v.src + v.size ≤ q.base + q.max

/-- The segment is removed without touching anything but the storage, or there is no
    such segment.  A queue that is refused stays what it is. -/
def Removes (q : Queue) (pos len : Nat) : Prop :=
  match q.crop pos len with
  | .ok (q', _) => pos + len ≤ q.len ∧
      q'.content = q.content.take pos ++ q.content.drop (pos + len) ∧
      ∀ v ∈ q.removalMoves pos len, q.Inside v
  | .error _ => q.len < pos + len

/-- Bytes up to the end of the storage. -/
def upper (q : Queue) : Nat := min (q.max - q.off) q.len

/-- The gap starts before the end of the storage and the content goes on behind it. -/
def Straddles (q : Queue) (pos len : Nat) : Prop :=
  0 < pos ∧ pos < q.upper ∧ q.upper < q.len ∧ pos + len ≤ q.len

/-- What lies behind the wrap is removed, and its last bytes fill the gap before it. -/
def Refills (q : Queue) (pos len : Nat) : Prop :=
  len = q.len - q.upper ∧ q.upper - pos ≤ len

theorem content_closed {m : Mem Byte} (fits : pos + len ≤ q.len)
    (front : ∀ i, i < pos → m (q.base + (q.off + i) % q.max) = q.mem (q.base + (q.off + i) % q.max))
    (back : ∀ i, pos + len + i < q.len →
      m (q.base + (q.off + (pos + i)) % q.max) = q.mem (q.base + (q.off + (pos + len + i)) % q.max)) :
    ({ q with mem := m, len := q.len - len } : Queue).content =
      q.content.take pos ++ q.content.drop (pos + len) := by
  have taken : (q.content.take pos).length = pos := by
    rw [List.length_take, length_content]
    omega
  apply List.ext_getElem
  · simp
    omega
  · intro i hi _
    rw [length_content] at hi
    refine (getElem_content _ i _).trans ?_
    by_cases before : i < pos
    · rw [List.getElem_append_left (by omega), List.getElem_take, getElem_content]
      exact front i before
    · obtain ⟨j, rfl⟩ := Nat.exists_eq_add_of_le (show pos ≤ i by omega)
      rw [List.getElem_append_right (by omega), List.getElem_drop, getElem_content]
      refine (back j (by simp only at hi; omega)).trans ?_
      congr 3
      omega

/-- A gap in content that goes on in one piece is closed by one move. -/
theorem removes_piece (v : q.Valid) {addr : Nat} (start : Nat)
    (fits : pos + len ≤ q.len) (addr_eq : addr = q.base + start)
    (room : start + (q.len - pos) ≤ q.max)
    (above : ∀ i, i < pos → (q.off + i) % q.max < start ∨ start + (q.len - pos) ≤ (q.off + i) % q.max)
    (piece : ∀ i, pos + i < q.len → (q.off + (pos + i)) % q.max = start + i) :
    ∃ q' ret, q.cropMove addr (q.len - pos) 0 len = .ok (q', ret) ∧
      q'.content = q.content.take pos ++ q.content.drop (pos + len) ∧
      ∀ v ∈ (q.cropMoves addr (q.len - pos) 0 len).1, q.Inside v := by
  have lenLe := v.len_le
  subst addr_eq
  unfold cropMove cropMoves
  rw [if_neg (by omega), if_neg (not_not.mpr rfl)]
  by_cases rest : q.len - pos + 0 - len ≠ 0
  · rw [if_pos rest]
    refine ⟨_, _, rfl, ?_, ?_⟩
    · apply content_closed fits
      · intro i before
        have := above i before
        simp only [applyMoves, List.foldl_cons, List.foldl_nil]
        exact Mem.move_outside _ (by omega)
      · intro i inside
        have src := piece (len + i) (by omega)
        rw [← Nat.add_assoc pos] at src
        rw [piece i (by omega), src]
        simp only [applyMoves, List.foldl_cons, List.foldl_nil]
        rw [← Nat.add_assoc q.base, Mem.move_inside _ _ _ (by omega)]
        congr 1
        omega
    · intro v mem
      obtain rfl := List.mem_singleton.mp mem
      refine .inr ⟨?_, ?_, ?_, ?_⟩ <;> simp only <;> omega
  · rw [if_neg rest]
    refine ⟨_, _, rfl, ?_, nofun⟩
    apply content_closed fits
    · intro i _
      rfl
    · intro i inside
      omega

/-- The sizes of the two moves are right if the second one is not needed. -/
theorem straddling_moves (v : q.Valid) (stored : q.base ≠ 0 ∨ q.max = 0) (small : q.max < 2 ^ 64)
    (gap : q.Straddles pos len) :
    (∀ b ∈ (q.cropMoves (q.base + q.off + pos) (q.upper - pos) (q.len - q.upper) len).1,
      q.Inside b) ↔ q.Refills pos len := by
  obtain ⟨_, before, broken, fits⟩ := gap
  have lenLe := v.len_le
  have offLe := v.off_le
  unfold cropMoves Refills Inside
  unfold upper at *
  rw [if_pos (by omega)]
  simp only
  by_cases short : min (q.max - q.off) q.len - pos ≤
      min (q.max - q.off) q.len - pos + (q.len - min (q.max - q.off) q.len) - len
  · rw [if_pos short]
    simp only [List.mem_singleton, forall_eq]
    constructor
    · rintro (none | inside)
      · omega
      · omega
    · intro refill
      exact .inr (by omega)
  · -- the rest of the bytes is counted below zero
    rw [if_neg short]
    refine iff_of_false ?_ (by omega)
    intro inside
    have second := inside ⟨q.base, q.base + len, _⟩ (List.mem_cons_of_mem _ (List.mem_singleton_self _))
    unfold sizeSub at second
    rw [if_neg short] at second
    simp only at second
    omega

theorem straddling_content (v : q.Valid) (gap : q.Straddles pos len) (refill : q.Refills pos len) :
    ∃ q' ret, q.cropMove (q.base + q.off + pos) (q.upper - pos) (q.len - q.upper) len =
        .ok (q', ret) ∧
      q'.content = q.content.take pos ++ q.content.drop (pos + len) := by
  obtain ⟨_, before, broken, fits⟩ := gap
  obtain ⟨all, covered⟩ := refill
  have lenLe := v.len_le
  have offLe := v.off_le
  unfold cropMove cropMoves
  unfold upper at *
  rw [if_neg (by omega), if_pos (by omega), if_pos (by omega)]
  refine ⟨_, _, rfl, ?_⟩
  apply content_closed fits
  · intro i front
    rw [wrap_eq offLe (by omega), if_pos (by omega)]
    simp only [applyMoves, List.foldl_cons, List.foldl_nil]
    exact Mem.move_outside _ (by omega)
  · intro i inside
    rw [wrap_eq offLe (by omega), wrap_eq offLe (by omega), if_pos (by omega), if_neg (by omega)]
    simp only [applyMoves, List.foldl_cons, List.foldl_nil]
    rw [← Nat.add_assoc q.off, ← Nat.add_assoc, ← Nat.add_assoc,
      Mem.move_inside _ _ _ (by omega)]
    congr 1
    omega

theorem removes_start (v : q.Valid) (len : Nat) : q.Removes 0 len := by
  unfold Removes
  rcases q.crop_front len with ⟨fits, ret, eq⟩ | ⟨excess, eq⟩
  · rw [eq]
    refine ⟨by omega, ?_, nofun⟩
    rw [content_dropFront v, Nat.zero_add, List.take_zero, List.nil_append]
  · rw [eq]
    simpa using excess

theorem removes_excess (start : pos ≠ 0) (excess : q.len < pos + len) : q.Removes pos len := by
  have : q.upper ≤ q.len := Nat.min_le_right _ _
  have upper_eq : min (q.max - q.off) q.len = q.upper := rfl
  unfold Removes crop cropMove
  simp only [data_eq, upper_eq, if_neg start]
  by_cases before : pos < q.upper
  · rw [if_pos before, if_pos (by omega)]
    exact excess
  · rw [if_neg before]
    by_cases outside : q.len - q.upper < pos - q.upper
    · rw [if_pos outside]
      exact excess
    · rw [if_neg outside, if_pos (by omega)]
      exact excess

/-- The gap starts in the upper part. -/
theorem crop_upper (start : pos ≠ 0) (before : pos < q.upper) (len : Nat) :
    q.crop pos len = q.cropMove (q.base + q.off + pos) (q.upper - pos) (q.len - q.upper) len ∧
      q.removalMoves pos len =
        (q.cropMoves (q.base + q.off + pos) (q.upper - pos) (q.len - q.upper) len).1 := by
  have upper_eq : min (q.max - q.off) q.len = q.upper := rfl
  unfold crop removalMoves
  simp only [data_eq, upper_eq]
  rw [if_neg start, if_pos before, if_neg start, if_pos before]
  exact ⟨rfl, rfl⟩

/-- The gap starts behind the upper part. -/
theorem crop_lower (start : pos ≠ 0) (behind : q.upper ≤ pos) (inside : pos ≤ q.len) (len : Nat) :
    q.crop pos len = q.cropMove (q.base + (pos - q.upper)) (q.len - pos) 0 len ∧
      q.removalMoves pos len =
        (q.cropMoves (q.base + (pos - q.upper)) (q.len - pos) 0 len).1 := by
  have upper_eq : min (q.max - q.off) q.len = q.upper := rfl
  have rest : q.len - q.upper - (pos - q.upper) = q.len - pos := by omega
  unfold crop removalMoves
  simp only [data_eq, upper_eq, rest]
  rw [if_neg start, if_neg (by omega), if_neg (by omega), if_neg start, if_neg (by omega)]
  exact ⟨rfl, rfl⟩

theorem removes_straddling (v : q.Valid) (stored : q.base ≠ 0 ∨ q.max = 0)
    (small : q.max < 2 ^ 64) (gap : q.Straddles pos len) :
    q.Removes pos len ↔ q.Refills pos len := by
  have lenLe := v.len_le
  have ⟨start, before, broken, fits⟩ := gap
  obtain ⟨crop_eq, moves_eq⟩ := crop_upper (Nat.pos_iff_ne_zero.mp start) before len
  unfold Removes
  rw [crop_eq, moves_eq]
  constructor
  · intro removes
    apply (straddling_moves v stored small gap).mp
    unfold cropMove at removes
    rw [if_neg (by omega)] at removes
    exact removes.2.2
  · intro refill
    obtain ⟨q', ret, eq, content⟩ := straddling_content v gap refill
    rw [eq]
    exact ⟨fits, content, (straddling_moves v stored small gap).mpr refill⟩

/-- Content that does not go on behind the end of the storage is moved as a whole. -/
theorem removes_unbroken (v : q.Valid) (start : pos ≠ 0) (before : pos < q.upper)
    (whole : q.upper = q.len) (fits : pos + len ≤ q.len) : q.Removes pos len := by
  have lenLe := v.len_le
  have offLe := v.off_le
  have room : q.off + q.len ≤ q.max := by
    unfold upper at whole
    omega
  have straight : ∀ i, i < q.len → (q.off + i) % q.max = q.off + i := by
    intro i inside
    exact Nat.mod_eq_of_lt (by omega)
  obtain ⟨crop_eq, moves_eq⟩ := crop_upper start before len
  obtain ⟨q', ret, eq, content, inside⟩ := removes_piece v (q.off + pos) fits
    (Nat.add_assoc _ _ _) (by omega)
    (fun i front => by rw [straight i (by omega)]; omega)
    (fun i back => by rw [straight _ back]; omega)
  unfold Removes
  rw [crop_eq, moves_eq, whole, Nat.sub_self, eq]
  exact ⟨fits, content, inside⟩

theorem removes_lower (v : q.Valid) (start : pos ≠ 0) (behind : q.upper ≤ pos)
    (fits : pos + len ≤ q.len) : q.Removes pos len := by
  have lenLe := v.len_le
  have offLe := v.off_le
  obtain ⟨crop_eq, moves_eq⟩ := crop_lower start behind (by omega) len
  unfold upper at *
  obtain ⟨q', ret, eq, content, inside⟩ := removes_piece v (pos - min (q.max - q.off) q.len) fits
    rfl (by omega)
    (fun i front => by
      rw [wrap_eq offLe (by omega)]
      split <;> omega)
    (fun i back => by
      rw [wrap_eq offLe (by omega)]
      split <;> omega)
  unfold Removes
  rw [crop_eq, moves_eq, eq]
  exact ⟨fits, content, inside⟩

/-- `mpt_queue_crop` removes a segment or refuses, except where the gap starts before the
    end of the storage and the content goes on behind it: then only if all that lies
    behind is removed and is enough to fill the upper part. -/
theorem removes_iff (v : q.Valid) (stored : q.base ≠ 0 ∨ q.max = 0) (small : q.max < 2 ^ 64)
    (pos len : Nat) :
    q.Removes pos len ↔ (q.Straddles pos len → q.Refills pos len) := by
  by_cases gap : q.Straddles pos len
  · rw [removes_straddling v stored small gap]
    exact ⟨fun refill _ => refill, fun refill => refill gap⟩
  refine iff_of_true ?_ (fun broken => absurd broken gap)
  by_cases start : pos = 0
  · subst start
    exact removes_start v len
  by_cases excess : q.len < pos + len
  · exact removes_excess start excess
  have fits : pos + len ≤ q.len := Nat.le_of_not_lt excess
  rcases Nat.lt_or_ge pos q.upper with before | behind
  · refine removes_unbroken v start before ?_ fits
    have : q.upper ≤ q.len := Nat.min_le_right _ _
    by_contra broken
    exact gap ⟨by omega, before, by omega, fits⟩
  · exact removes_lower v start behind fits

theorem removes_behind : (fourBytes 2 4).Removes 1 2 :=
  (removes_iff (q := fourBytes 2 4) ⟨by decide, by decide⟩ (.inl (by decide)) (by decide) 1 2).mpr
    fun _ => ⟨by decide, by decide⟩

/-- One byte fits behind the first one, and two are stored. -/
theorem straddling_overrun : (fourBytes 2 4).removalMoves 1 1 = [⟨19, 16, 2⟩] ∧
    ¬ (fourBytes 2 4).Removes 1 1 := by
  refine ⟨by decide, ?_⟩
  rw [removes_straddling ⟨by decide, by decide⟩ (.inl (by decide)) (by decide)
    ⟨by decide, by decide, by decide, by decide⟩]
  exact fun refill => absurd refill.1 (by decide)

end Mpt.Queue
