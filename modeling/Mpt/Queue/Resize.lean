import Mpt.Queue.Align

/-! # Queue storage of another size

The content moves with the storage.  If it lies on both sides of the end of the
storage, it is aligned before the storage grows.
-/

namespace Mpt

/-- The storage that an allocation returned. -/
structure Fresh where
  mem : Mem Byte
  base : Nat
  base_ne : base ≠ 0

/-- `SIZE_MAX` -/
def sizeMax : Nat := 2 ^ 64 - 1

/-- `MPT_align`; the predecessor of a size is its sum with the largest one. -/
def alignSize (x : Nat) : Nat := x + 7 - ((x + sizeMax) &&& 7)

theorem le_alignSize (x : Nat) : x ≤ alignSize x := by
  have : (x + sizeMax) &&& 7 ≤ 7 := Nat.and_le_right
  unfold alignSize
  omega

namespace Queue

/-- `realloc` of the storage -/
def moved (q : Queue) (f : Fresh) (len : Nat) : Queue :=
  { q with
    mem := f.mem.write f.base (q.mem.read q.base (min q.max len))
    base := f.base
    max := len }

/-- `mpt_queue_resize`, and if there is storage.  `grant` is the result of the request for
    memory. -/
def resize (grant : Option Fresh) (q : Queue) (len : Nat) : Queue × Bool :=
  let request (q : Queue) : Queue × Bool :=
    match grant with
    | none => (q, false)
    | some f => (q.moved f len, true)
  if len = 0 then
    ({ q with base := 0, len := 0, off := 0, max := 0 }, false)
  -- remove data from queue start
  else if len < q.max then
    let q := if len < q.len then
        match q.crop 0 (q.len - len) with
        | .ok (q, _) => q
        | .error _ => q
      else q
    request (q.align 0)
  -- enlarge data area
  else if q.max < len then
    request (if q.frag then q.align 0 else q)
  else
    (q, q.base ≠ 0)

/-- `mpt_queue_prepare`: the space that is left. -/
def prepare (grant : Option Fresh) (q : Queue) (len : Nat) : Queue × Nat :=
  let left := q.max - q.len
  if left < len then
    if sizeMax - left < len then
      (q, 0)
    else
      match q.resize grant (alignSize (len - left + q.max)) with
      | (q, false) => (q, 0)
      | (q, true) => (q, q.max - q.len)
  else
    (q, left)

/-- Content in one piece moves with the storage if it fits into the new one. -/
theorem moved_piece {q : Queue} (f : Fresh) {len : Nat} (whole : q.off + q.len ≤ q.max)
    (fits : q.off + q.len ≤ len) : (q.moved f len).content = q.content := by
  apply List.ext_getElem
  · simp [moved]
  · intro i low _
    have inside : i < q.len := by simpa [moved] using low
    rw [getElem_content, getElem_content]
    simp only [moved]
    rw [Nat.mod_eq_of_lt (by omega), Nat.mod_eq_of_lt (by omega),
      Mem.write_inside _ _ _ (by rw [Mem.length_read]; omega), Mem.getElem_read]

/-- Content without a break moves with larger storage. -/
theorem moved_content {q : Queue} (v : q.Valid) (whole : q.frag = false) (f : Fresh) {len : Nat}
    (more : q.max ≤ len) : (q.moved f len).content = q.content := by
  have off_le := v.off_le
  have len_le := v.len_le
  simp only [frag, decide_eq_false_iff_not, Nat.not_lt] at whole
  exact moved_piece f (by omega) (by omega)

theorem resize_grow {q : Queue} (f : Fresh) {n : Nat} (more : q.max < n) :
    q.resize (some f) n = ((if q.frag then q.align 0 else q).moved f n, true) := by
  unfold resize
  rw [if_neg (by omega), if_neg (by omega), if_pos more]

theorem prepare_grow {q : Queue} (f : Fresh) {len n : Nat} (room : q.max - q.len < len)
    (small : 2 * len ≤ sizeMax) (size : alignSize (len - (q.max - q.len) + q.max) = n)
    (more : q.max < n) :
    q.prepare (some f) len = ((if q.frag then q.align 0 else q).moved f n,
      n - (if q.frag then q.align 0 else q).len) := by
  unfold prepare
  simp only [size]
  rw [if_pos room, if_neg (by omega), resize_grow f more]
  simp only [moved]

/-- Before the storage grows the content is in one part of it. -/
theorem unbroken {q : Queue} (v : q.Valid) (stored : q.base ≠ 0 ∨ q.max = 0) :
    ∃ p, (if q.frag then q.align 0 else q) = p ∧ p.Valid ∧ p.frag = false ∧ p.base = q.base ∧
      p.max = q.max ∧ p.len = q.len ∧ p.content = q.content := by
  by_cases broken : q.frag
  · have base : q.base ≠ 0 := by
      have off_le := v.off_le
      simp only [frag, decide_eq_true_eq] at broken
      exact stored.resolve_right (by omega)
    obtain ⟨m, start, eq, _, zero, content⟩ := align_zero v
    obtain rfl := zero base
    refine ⟨q.align 0, if_pos broken, ?_, ?_, ?_, ?_, ?_, content⟩
    · rw [eq]
      exact ⟨Nat.zero_le _, v.len_le⟩
    · rw [eq]
      simp [frag]
    · rw [eq]
    · rw [eq]
    · rw [eq]
  · exact ⟨q, if_neg broken, v, by simpa using broken, rfl, rfl, rfl, rfl⟩

/-- Growth keeps the content. -/
theorem prepare_spec {q : Queue} (v : q.Valid) (stored : q.base ≠ 0 ∨ q.max = 0) (f : Fresh)
    {len : Nat} (pos : 0 < len) (small : 2 * len ≤ sizeMax) :
    ∃ q' left, q.prepare (some f) len = (q', left) ∧ left ≠ 0 ∧ q'.Valid ∧ q'.base ≠ 0 ∧
      q'.content = q.content ∧ q'.len = q.len ∧ len ≤ q'.max - q'.len := by
  have len_le := v.len_le
  by_cases room : q.max - q.len < len
  · have grown := le_alignSize (len - (q.max - q.len) + q.max)
    generalize total : alignSize (len - (q.max - q.len) + q.max) = n at grown
    have call := prepare_grow f room small total (by omega)
    obtain ⟨p, eq, v', whole, _, max, size, content⟩ := unbroken v stored
    have off_le := v'.off_le
    rw [eq] at call
    refine ⟨p.moved f n, n - p.len, call, by omega, ⟨?_, ?_⟩, f.base_ne, ?_, size, ?_⟩
    · simp only [moved]
      omega
    · simp only [moved]
      omega
    · rw [moved_content v' whole f (by omega), content]
    · simp only [moved, size]
      omega
  · refine ⟨q, q.max - q.len, ?_, by omega, v, stored.resolve_right (by omega), rfl, rfl, by omega⟩
    unfold prepare
    simp only
    rw [if_neg room]

/-- Removing the first bytes makes the content fit. -/
theorem cropped {q : Queue} (v : q.Valid) (n : Nat) :
    ∃ p, (if n < q.len then
        match q.crop 0 (q.len - n) with
        | .ok (q, _) => q
        | .error _ => q
      else q) = p ∧ p.Valid ∧ p.base = q.base ∧ p.max = q.max ∧ p.len ≤ n ∧
      p.content = q.content.drop (q.len - min q.len n) := by
  by_cases more : n < q.len
  · rw [if_pos more, Nat.min_eq_right (Nat.le_of_lt more)]
    rcases q.crop_front (q.len - n) with ⟨fits, ret, eq⟩ | ⟨excess, _⟩
    · rw [eq]
      refine ⟨_, rfl, dropFront_valid v fits, rfl, rfl, ?_, content_dropFront v _⟩
      simp only [dropFront]
      omega
    · omega
  · rw [if_neg more, Nat.min_eq_left (Nat.le_of_not_lt more), Nat.sub_self, List.drop_zero]
    exact ⟨q, rfl, v, rfl, rfl, Nat.le_of_not_lt more, rfl⟩

/-- What `mpt_queue_resize` hands to `realloc` is the last part of the content, in one piece. -/
theorem resize_spec {q : Queue} (v : q.Valid) (stored : q.base ≠ 0 ∨ q.max = 0)
    (grant : Option Fresh) {n : Nat} (pos : 0 < n) :
    (n = q.max ∧ q.resize grant n = (q, true)) ∨
      (n ≠ q.max ∧ ∃ p : Queue, p.base = q.base ∧ p.max = q.max ∧ p.off + p.len ≤ q.max ∧
        p.off + p.len ≤ n ∧ p.content = q.content.drop (q.len - min q.len n) ∧
        q.resize grant n = match grant with
          | none => (p, false)
          | some f => (p.moved f n, true)) := by
  have len_le := v.len_le
  unfold resize
  rw [if_neg (by omega)]
  rcases Nat.lt_trichotomy n q.max with less | same | more
  · have base : q.base ≠ 0 := stored.resolve_right (by omega)
    obtain ⟨p, eq, v', base', max, fits, content⟩ := cropped v n
    obtain ⟨m, start, aligned, _, zero, kept⟩ := align_zero v'
    obtain rfl := zero (by rwa [base'])
    have := v'.len_le
    rw [if_pos less]
    refine .inr ⟨by omega, p.align 0, ?_, ?_, ?_, ?_, kept.trans content, ?_⟩
    · rw [aligned]
      exact base'
    · rw [aligned]
      exact max
    · rw [aligned]
      simp only
      omega
    · rw [aligned]
      simp only
      omega
    · simp only [eq]
  · rw [if_neg (by omega), if_neg (by omega)]
    refine .inl ⟨same, ?_⟩
    simp [stored.resolve_right (by omega)]
  · obtain ⟨p, eq, v', whole, base, max, size, content⟩ := unbroken v stored
    have := v'.len_le
    have := v'.off_le
    simp only [frag, decide_eq_false_iff_not, Nat.not_lt] at whole
    rw [if_neg (by omega), if_pos more]
    refine .inr ⟨by omega, p, base, max, by omega, by omega, ?_, ?_⟩
    · rw [content, Nat.min_eq_left (by omega), Nat.sub_self, List.drop_zero]
    · simp only [eq]

end Queue

/-- `mpt_memrev` exchanges two blocks of any size and touches nothing else. -/
theorem memrev_spec (m : Mem Byte) {data pre len : Nat} (some : data ≠ 0) (le : pre ≤ len) :
    ∃ m', memrev m data pre len = .ok m' ∧
      m'.read data len = m.read (data + pre) (len - pre) ++ m.read data pre ∧
      ∀ a, a < data ∨ data + len ≤ a → m' a = m a := by
  refine ⟨rotated m data pre (len - pre), ?_, ?_, ?_⟩
  · unfold memrev
    rw [if_neg some, if_neg (by omega), memrevLoop_eq _ _ _ _ _ (by omega)]
  · rw [← Nat.sub_add_cancel le, Mem.read_append, Nat.add_sub_cancel]
    congr 1
    · apply List.ext_getElem
      · simp
      · intro i hi _
        rw [Mem.length_read] at hi
        rw [Mem.getElem_read, Mem.getElem_read]
        simp only [rotated]
        rw [if_pos (by omega)]
        congr 1
        omega
    · apply List.ext_getElem
      · simp
      · intro i hi _
        rw [Mem.length_read] at hi
        rw [Mem.getElem_read, Mem.getElem_read]
        simp only [rotated]
        rw [if_neg (by omega), if_pos (by omega)]
        congr 1
        omega
  · intro a outside
    simp only [rotated]
    rw [if_neg (by omega), if_neg (by omega)]

namespace Queue

/-- With the memory for it, a queue of any layout gets the storage asked for and keeps its
    last bytes; so it does when it is brought to the start of its storage, and the
    exchange of blocks behind both works for all sizes. -/
theorem resize_keeps {q : Queue} (v : q.Valid) (stored : q.base ≠ 0 ∨ q.max = 0) (f : Fresh)
    {n : Nat} (pos : 0 < n) :
    (∃ q', q.resize (some f) n = (q', true) ∧ q'.max = n ∧
      q'.content = q.content.drop (q.len - min q.len n)) ∧
    (q.align 0).content = q.content ∧
    ∀ m data pre len, data ≠ 0 → pre ≤ len → ∃ m', memrev m data pre len = .ok m' ∧
      m'.read data len = m.read (data + pre) (len - pre) ++ m.read data pre ∧
      ∀ a, a < data ∨ data + len ≤ a → m' a = m a := by
  have len_le := v.len_le
  obtain ⟨_, _, _, _, _, aligned⟩ := align_zero v
  refine ⟨?_, aligned, fun m _ _ _ some le => memrev_spec m some le⟩
  rcases resize_spec v stored (some f) pos with ⟨same, eq⟩ | ⟨_, p, _, max, whole, fits, content, eq⟩
  · refine ⟨q, eq, same.symm, ?_⟩
    rw [Nat.min_eq_left (by omega), Nat.sub_self, List.drop_zero]
  · refine ⟨p.moved f n, eq, rfl, ?_⟩
    rw [moved_piece f (by omega) fits, content]

theorem resize_keeps_wrapped :
    ∃ q', (⟨fun a => .ofNat a, 16, 4, 4, 2⟩ : Queue).resize (some ⟨fun _ => 0, 64, by decide⟩) 3 =
      (q', true) ∧ q'.max = 3 ∧ q'.content = [19, 16, 17] :=
  (resize_keeps ⟨by decide, by decide⟩ (.inl (by decide)) _ (by decide)).1

end Queue

end Mpt
