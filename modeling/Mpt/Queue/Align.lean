import Mpt.Queue.Content

/-! # Rotating storage and aligning a queue

`mpt_memrev` exchanges two adjacent ranges of any size through a 1024 byte
buffer; `mpt_queue_align` uses it to bring a wrapped queue into one piece.
-/

namespace Mpt

theorem Mem.move_apply (m : Mem α) (dst src n i : Nat) :
    m.move dst src n i = if dst ≤ i ∧ i < dst + n then m (src + (i - dst)) else m i := by
  split
  · obtain ⟨j, rfl⟩ := Nat.exists_eq_add_of_le (show dst ≤ i by omega)
    rw [move_inside m dst src (by omega)]
    congr 1
    omega
  · exact move_outside m (by omega)

theorem Mem.write_read_apply (m m' : Mem α) (dst src n i : Nat) :
    m.write dst (m'.read src n) i =
      if dst ≤ i ∧ i < dst + n then m' (src + (i - dst)) else m i := by
  split
  · obtain ⟨j, rfl⟩ := Nat.exists_eq_add_of_le (show dst ≤ i by omega)
    rw [write_inside _ _ _ (by simp; omega), getElem_read]
    congr 1
    omega
  · exact write_outside _ _ (by simp; omega)

theorem swapBlock_apply (m : Mem Byte) {a b n : Nat} (apart : a + n ≤ b) (i : Nat) :
    swapBlock m a b n i =
      if a ≤ i ∧ i < a + n then m (b + (i - a))
      else if b ≤ i ∧ i < b + n then m (a + (i - b)) else m i := by
  simp only [swapBlock, Mem.write_read_apply, Mem.move_apply]
  split_ifs <;> first | rfl | omega

theorem swapBlock_append (m : Mem Byte) {a b k n : Nat} (apart : a + (k + n) ≤ b) :
    swapBlock (swapBlock m a b k) (a + k) (b + k) n = swapBlock m a b (k + n) := by
  funext i
  rw [swapBlock_apply _ (by omega), swapBlock_apply _ apart, swapBlock_apply _ (by omega),
    swapBlock_apply _ (by omega), swapBlock_apply _ (by omega)]
  split_ifs <;> first | omega | rfl | (congr 1; omega)

theorem memswapParts_eq (m : Mem Byte) (parts rest : Nat) {a b : Nat}
    (apart : a + (parts * 1024 + rest) ≤ b) :
    memswapParts m a b parts rest = swapBlock m a b (parts * 1024 + rest) := by
  induction parts generalizing m a b with
  | zero =>
      simp only [memswapParts, Nat.zero_mul, Nat.zero_add]
      split
      · funext i
        rw [swapBlock_apply _ (by omega)]
        split_ifs <;> first | rfl | omega
      · rfl
  | succ parts ih =>
      have total : (parts + 1) * 1024 + rest = 1024 + (parts * 1024 + rest) := by omega
      rw [memswapParts, ih _ (by omega), total, swapBlock_append _ (by omega)]

/-- `mpt_memswap` exchanges two disjoint ranges. -/
theorem memswap_eq (m : Mem Byte) {a b n : Nat} (apart : a + n ≤ b) :
    memswap m a b n = swapBlock m a b n := by
  have whole : n / 1024 * 1024 + n % 1024 = n := Nat.div_add_mod' n 1024
  rw [memswap, memswapParts_eq _ _ _ (by omega), whole]

/-- Two adjacent ranges in exchanged order. -/
def rotated (m : Mem Byte) (data pre post : Nat) : Mem Byte :=
  fun i =>
    if data ≤ i ∧ i < data + post then m (i + pre)
    else if data + post ≤ i ∧ i < data + post + pre then m (i - post)
    else m i

theorem memrevLoop_eq (rounds : Nat) (m : Mem Byte) (data pre post : Nat)
    (enough : pre + post ≤ rounds) :
    memrevLoop m data pre post rounds = rotated m data pre post := by
  induction rounds generalizing m data pre post with
  | zero =>
      funext i
      simp only [memrevLoop, rotated]
      split_ifs <;> first | rfl | omega
  | succ rounds ih =>
      funext i
      simp only [memrevLoop]
      split_ifs with done small smallPost less
      · simp only [rotated]
        split_ifs <;> first | rfl | omega | (congr 1; omega)
      · simp only [rotated, Mem.write_read_apply, Mem.move_apply]
        split_ifs <;> first | rfl | omega | (congr 1; omega)
      · simp only [rotated, Mem.write_read_apply, Mem.move_apply]
        split_ifs <;> first | rfl | omega | (congr 1; omega)
      · rw [ih _ _ _ _ (by omega), memswap_eq m (by omega)]
        simp only [rotated, swapBlock_apply m (show data + pre ≤ data + pre by omega)]
        split_ifs <;> first | rfl | omega | (congr 1; omega)
      · rw [ih _ _ _ _ (by omega), memswap_eq m (by omega)]
        simp only [rotated, swapBlock_apply m (show data + (pre - post) + post ≤ data + pre by omega)]
        split_ifs <;> first | rfl | omega | (congr 1; omega)

namespace Queue

theorem rotate_eq (m : Mem Byte) {addr pre len : Nat} (base : addr ≠ 0) (le : pre ≤ len) :
    rotate m addr pre len = rotated m addr pre (len - pre) := by
  rw [rotate, memrev, if_neg base, if_neg (by omega)]
  exact memrevLoop_eq len m addr pre (len - pre) (by omega)

/-- Aligning to the start of the storage keeps the content, whatever the layout. -/
theorem align_zero {q : Queue} (v : q.Valid) :
    ∃ m start, q.align 0 = { q with mem := m, off := start } ∧ start ≤ q.max ∧
      (q.base ≠ 0 → start = 0) ∧ (q.align 0).content = q.content := by
  have offLe := v.off_le
  have lenLe := v.len_le
  simp only [align, if_neg (Nat.not_lt_zero q.max)]
  by_cases empty : q.len = 0
  · rw [if_pos empty]
    refine ⟨_, _, rfl, Nat.zero_le _, fun _ => rfl, ?_⟩
    simp [content, empty]
  rw [if_neg empty]
  by_cases null : q.base = 0
  · rw [if_pos null]
    exact ⟨_, _, rfl, offLe, fun base => absurd null base, rfl⟩
  rw [if_neg null]
  by_cases fragmented : q.frag
  · rw [if_pos fragmented, if_pos trivial]
    refine ⟨_, _, rfl, Nat.zero_le _, fun _ => rfl, ?_⟩
    simp only [frag, decide_eq_true_eq] at fragmented
    have joined : (if q.max - q.len ≠ 0 then
          q.mem.move (q.base + q.off - (q.max - q.len)) (q.base + q.off) (q.max - q.off)
        else q.mem) =
        q.mem.move (q.base + q.off - (q.max - q.len)) (q.base + q.off) (q.max - q.off) := by
      split
      · rfl
      · rw [show q.max - q.len = 0 by omega, Nat.sub_zero, Mem.move, Mem.write_read]
    rw [joined, rotate_eq _ null (by omega)]
    apply List.ext_getElem
    · simp
    · intro i hi _
      have inside : i < q.len := by simpa using hi
      rw [getElem_content, getElem_content, wrap_eq offLe (by omega), Nat.zero_add,
        Nat.mod_eq_of_lt (by simp only; omega)]
      simp only [rotated, Mem.move_apply]
      split_ifs <;> first | omega | (congr 1; omega)
  rw [if_neg fragmented]
  by_cases placed : 0 = q.off
  · rw [if_pos placed]
    exact ⟨_, _, rfl, offLe, fun _ => placed.symm, rfl⟩
  rw [if_neg placed, place, placeMoves, if_pos (Nat.zero_le _), if_pos (Nat.zero_le _)]
  refine ⟨_, _, rfl, Nat.zero_le _, fun _ => rfl, ?_⟩
  simp only [frag, decide_eq_true_eq] at fragmented
  apply List.ext_getElem
  · simp
  · intro i hi _
    have inside : i < q.len := by simpa using hi
    rw [getElem_content, getElem_content, wrap_eq offLe (by omega), Nat.zero_add,
      Nat.mod_eq_of_lt (by simp only; omega)]
    simp only [applyMoves, List.foldl_cons, List.foldl_nil, Mem.move_apply]
    split_ifs <;> first | omega | (congr 1; omega)

end Queue

end Mpt
