import Mpt.Queue.Resize

/-! # Space for a length of any size

`mpt_queue_prepare` checks one of its sums only.  A size that wraps around when it is
added to the used one or rounded up makes the storage smaller, or releases it.
-/

namespace Mpt

theorem alignSize_eq (x : Nat) : alignSize x = (x + 7) / 8 * 8 := by
  have mask : ∀ y, y &&& 7 = y % 8 := fun y => Nat.and_two_pow_sub_one_eq_mod y 3
  have below : (x + sizeMax) % 8 = (x + 7) % 8 := by
    rw [Nat.add_mod, show sizeMax % 8 = 7 from rfl]
    omega
  unfold alignSize
  rw [mask, below]
  omega

namespace Queue

/-- `mpt_queue_prepare` with the sums of `size_t`. -/
def prepareSize (grant : Option Fresh) (q : Queue) (len : Nat) : Queue × Nat :=
  let left := q.max - q.len
  if left < len then
    if sizeMax - left < len then
      (q, 0)
    else
      let len := (len - left + q.max) % 2 ^ 64
      let done := q.resize grant (alignSize len % 2 ^ 64)
      (done.1, if done.2 then done.1.max - done.1.len else 0)
  else
    (q, left)

/-- There is as much space as asked for, or none was made and the storage is the same. -/
def Prepares (q : Queue) (grant : Option Fresh) (len : Nat) : Prop :=
  match q.prepareSize grant len with
  | (q', left) => q'.content = q.content ∧ q'.len = q.len ∧
      (len ≤ left ∧ left = q'.max - q'.len ∨
        left = 0 ∧ 0 < len ∧ q'.base = q.base ∧ q'.max = q.max)

/-- The size of the storage that `mpt_queue_prepare` asks for. -/
def asked (q : Queue) (len : Nat) : Nat := alignSize ((q.len + len) % 2 ^ 64) % 2 ^ 64

variable {q : Queue} {grant : Option Fresh} {len : Nat}

theorem prepareSize_eq (v : q.Valid) (more : q.max - q.len < len)
    (small : q.max - q.len + len ≤ sizeMax) {q' : Queue} {some : Bool}
    (resized : q.resize grant (q.asked len) = (q', some)) :
    q.prepareSize grant len = (q', if some then q'.max - q'.len else 0) := by
  have len_le := v.len_le
  have sum : len - (q.max - q.len) + q.max = q.len + len := by omega
  unfold prepareSize
  simp only
  rw [if_pos more, if_neg (by omega), sum]
  unfold asked at resized
  rw [resized]

/-- Sums that do not wrap around are those of `prepare`. -/
theorem prepareSize_prepare (v : q.Valid) (fits : q.len + len ≤ 2 ^ 64 - 8) :
    q.prepareSize grant len = q.prepare grant len := by
  have len_le := v.len_le
  unfold prepareSize prepare
  simp only
  by_cases more : q.max - q.len < len
  · have sum : len - (q.max - q.len) + q.max = q.len + len := by omega
    have total : (q.len + len) % 2 ^ 64 = q.len + len := Nat.mod_eq_of_lt (by omega)
    have aligned : alignSize (q.len + len) % 2 ^ 64 = alignSize (q.len + len) := by
      rw [alignSize_eq]
      exact Nat.mod_eq_of_lt (by omega)
    rw [if_pos more, if_pos more, sum, total, aligned]
    split
    · rfl
    · rcases q.resize grant (alignSize (q.len + len)) with ⟨q', _ | _⟩ <;> rfl
  · rw [if_neg more, if_neg more]

/-- The whole content is left by storage that is large enough for it. -/
theorem kept_iff {p : Queue} {n : Nat}
    (content : p.content = q.content.drop (q.len - min q.len n)) :
    p.content = q.content ∧ p.len = q.len ↔ q.len ≤ n := by
  have size := congrArg List.length content
  rw [length_content, List.length_drop, length_content] at size
  constructor
  · rintro ⟨_, same⟩
    omega
  · intro fits
    refine ⟨?_, by omega⟩
    rw [content, Nat.min_eq_left fits, Nat.sub_self, List.drop_zero]

/-- A rounded sum that fits is larger than the storage. -/
theorem prepares_fits (v : q.Valid) (stored : q.base ≠ 0 ∨ q.max = 0)
    (more : q.max - q.len < len) (small : q.max - q.len + len ≤ sizeMax)
    (fits : q.len + len ≤ 2 ^ 64 - 8) : q.Prepares grant len := by
  have len_le := v.len_le
  have large : q.len + len ≤ q.asked len := by
    unfold asked
    rw [alignSize_eq]
    omega
  unfold Prepares
  rcases resize_spec v stored grant (show 0 < q.asked len by omega) with
    ⟨same, _⟩ | ⟨_, p, base, max, whole, room, content, eq⟩
  · omega
  · obtain ⟨kept, size⟩ := (kept_iff content).mpr (by omega)
    cases grant with
    | none =>
        rw [prepareSize_eq v more small eq]
        exact ⟨kept, size, .inr ⟨rfl, by omega, base, max⟩⟩
    | some f =>
        rw [prepareSize_eq v more small eq]
        refine ⟨(moved_piece f (by omega) room).trans kept, size, .inl ⟨?_, rfl⟩⟩
        simp only [moved, if_true]
        omega

/-- A sum that is rounded to zero releases the storage. -/
theorem prepareSize_none (v : q.Valid) (more : q.max - q.len < len)
    (small : q.max - q.len + len ≤ sizeMax) (zero : q.asked len = 0) :
    q.prepareSize grant len = ({ q with base := 0, len := 0, off := 0, max := 0 }, 0) := by
  have released : q.resize grant (q.asked len) =
      ({ q with base := 0, len := 0, off := 0, max := 0 }, false) := by
    rw [zero]
    unfold resize
    exact if_pos rfl
  exact prepareSize_eq v more small released

theorem prepares_none (v : q.Valid) (stored : q.base ≠ 0 ∨ q.max = 0)
    (more : q.max - q.len < len) (small : q.max - q.len + len ≤ sizeMax)
    (zero : q.asked len = 0) : q.Prepares grant len ↔ q.base = 0 := by
  have len_le := v.len_le
  unfold Prepares
  rw [prepareSize_none v more small zero]
  constructor
  · rintro ⟨_, _, ⟨less, _⟩ | ⟨_, _, base, _⟩⟩
    · omega
    · exact base.symm
  · intro base
    have none : q.max = 0 := by omega
    have empty : q.len = 0 := by omega
    refine ⟨?_, empty.symm, .inr ⟨rfl, by omega, base.symm, none.symm⟩⟩
    simp [content, empty]

/-- A sum that wraps around never gives the space. -/
theorem prepares_wrapped (v : q.Valid) (stored : q.base ≠ 0 ∨ q.max = 0)
    (more : q.max - q.len < len) (small : q.max - q.len + len ≤ sizeMax)
    (wraps : 2 ^ 64 - 8 < q.len + len) (pos : 0 < q.asked len) :
    q.Prepares grant len ↔
      q.asked len = q.max ∧ q.len = q.max ∨
        q.asked len ≠ q.max ∧ grant = none ∧ q.len ≤ q.asked len := by
  have len_le := v.len_le
  have less : q.asked len < q.len + len := by
    unfold asked at *
    rw [alignSize_eq] at *
    omega
  unfold Prepares
  rcases resize_spec v stored grant pos with
    ⟨same, eq⟩ | ⟨apart, p, base, max, whole, room, content, eq⟩
  · rw [prepareSize_eq v more small eq]
    simp only [if_true, true_and, and_true, same, ne_eq, not_true_eq_false, false_and, or_false]
    omega
  · have cut := kept_iff content
    cases grant with
    | none =>
        rw [prepareSize_eq v more small eq]
        simp only [Bool.false_eq_true, if_false, true_and, and_true, apart, ne_eq,
          not_false_eq_true, false_and, false_or, base, max]
        rw [← and_assoc, cut]
        omega
    | some f =>
        rw [prepareSize_eq v more small eq]
        refine iff_of_false ?_ (by simp [apart])
        rintro ⟨kept, size, ⟨enough, _⟩ | ⟨_, _, _, same⟩⟩
        · simp only [moved, if_true] at size enough
          omega
        · exact apart same

/-- `mpt_queue_prepare` gives the space or leaves the queue alone if and only if there was
    enough, the sum that it checks wraps around, the other one does not even when it is
    rounded, there is no storage, or the storage cannot or need not change for the size
    that comes out. -/
theorem prepares_iff (v : q.Valid) (stored : q.base ≠ 0 ∨ q.max = 0)
    (len_lt : len ≤ sizeMax) :
    q.Prepares grant len ↔ len ≤ q.max - q.len ∨ sizeMax < q.max - q.len + len ∨
      q.len + len ≤ 2 ^ 64 - 8 ∨ q.base = 0 ∨
      0 < q.asked len ∧ (q.asked len = q.max ∧ q.len = q.max ∨
        q.asked len ≠ q.max ∧ grant = none ∧ q.len ≤ q.asked len) := by
  have len_le := v.len_le
  by_cases enough : len ≤ q.max - q.len
  · refine iff_of_true ?_ (.inl enough)
    unfold Prepares prepareSize
    simp only
    rw [if_neg (by omega)]
    exact ⟨rfl, rfl, .inl ⟨enough, rfl⟩⟩
  have more := Nat.lt_of_not_le enough
  by_cases checked : sizeMax < q.max - q.len + len
  · refine iff_of_true ?_ (.inr (.inl checked))
    unfold Prepares prepareSize
    simp only
    rw [if_pos more, if_pos (by omega)]
    exact ⟨rfl, rfl, .inr ⟨rfl, by omega, rfl, rfl⟩⟩
  have small := Nat.le_of_not_lt checked
  by_cases fits : q.len + len ≤ 2 ^ 64 - 8
  · exact iff_of_true (prepares_fits v stored more small fits) (.inr (.inr (.inl fits)))
  have wraps := Nat.lt_of_not_le fits
  simp only [enough, checked, fits, false_or]
  rcases Nat.eq_zero_or_pos (q.asked len) with zero | pos
  · rw [prepares_none v stored more small zero]
    omega
  · rw [prepares_wrapped v stored more small wraps pos]
    have base : q.base ≠ 0 := by
      -- without storage the sum is the length, which is rounded to zero
      intro null
      unfold asked at pos
      rw [alignSize_eq] at pos
      unfold sizeMax at *
      omega
    simp only [base, pos, true_and, false_or]

theorem prepares_grow : (⟨fun a => .ofNat a, 16, 3, 4, 2⟩ : Queue).Prepares
    (some ⟨fun _ => 0, 64, by decide⟩) 5 :=
  (prepares_iff ⟨by decide, by decide⟩ (.inl (by decide)) (by decide)).mpr
    (.inr (.inr (.inl (by decide))))

/-- The sum of the used size and this length is zero: nothing of the content is left. -/
theorem prepare_releases :
    ∃ q : Queue, q.Valid ∧ q.content = [16, 17, 18, 19] ∧
      (q.prepareSize none (2 ^ 64 - 4)).1.content = [] ∧ ¬ q.Prepares none (2 ^ 64 - 4) := by
  have v : (⟨fun a => .ofNat a, 16, 4, 4, 0⟩ : Queue).Valid := ⟨by decide, by decide⟩
  have zero : (⟨fun a => .ofNat a, 16, 4, 4, 0⟩ : Queue).asked (2 ^ 64 - 4) = 0 := by
    unfold asked
    rw [alignSize_eq]
    simp
  refine ⟨_, v, by decide, ?_, ?_⟩
  · rw [prepareSize_none v (by decide) (by decide) zero]
    rfl
  · rw [prepares_none v (.inl (by decide)) (by decide) (by decide) zero]
    decide

end Queue

end Mpt
