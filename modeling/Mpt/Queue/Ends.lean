import Mpt.Queue.Content

/-! # Taking from the end of a queue and adding to its start

`mpt_qpop` looks for the last bytes where the first ones are, unless the content
wraps around and all of them lie behind the wrap.  `mpt_qunshift` relies on the free
space that `mpt_queue_empty` reports, which it does not for a full queue.
-/

namespace Mpt.Queue

/-- `mpt_qpop`: the queue and the bytes at the address returned.  `target` is the storage
    that they are copied to, if there is one. -/
def pop (q : Queue) (len : Nat) (target : Option (Mem Byte)) : Option (Queue × List Byte) :=
  let (addr, low) := q.data
  let high := q.len - low
  -- aligned queue
  if high = 0 then
    if low < len then
      none
    else
      some ({ q with len := q.len - len }, q.mem.read addr len)
  -- data in separate parts
  else if high < len then
    match target with
    | none => none
    | some m =>
        let len := len - high
        if low < len then
          none
        else
          let m := m.write 0 (q.mem.read (q.base + q.max - len) high)
          let m := m.write len (q.mem.read q.base high)
          some ({ q with len := q.len - len }, m.read 0 (len + high))
  -- data in high part
  else
    some ({ q with len := q.len - len }, q.mem.read (q.base + (high - len)) len)

/-- `mpt_qunshift`, with no result for a negative one; `unset` is what `mpt_qpre` finds in its
    variables. -/
def unshift (q : Queue) (src : Data) (unset : Nat × Nat) : Queue × Option Nat :=
  match q.pre src.len unset with
  | .error _ => (q, none)
  | .ok (q', left) =>
      -- the count of elements left is kept as an `int`
      if overInt left then
        (q', none)
      else
        match q'.setRange 0 src with
        | .error _ => (q', none)
        | .ok (q'', ret) => (q'', some ret)

/-- The last bytes are taken, or there are not as many. -/
def Pops (q : Queue) (n : Nat) (target : Mem Byte) : Prop :=
  match q.pop n (some target) with
  | some (q', bytes) => n ≤ q.len ∧ bytes = q.content.drop (q.len - n) ∧
      q'.content = q.content.take (q.len - n)
  | none => q.len < n

/-- The bytes go in front, or they do not fit and nothing changes. -/
def Unshifts (q : Queue) (src : Data) (unset : Nat × Nat) : Prop :=
  match q.unshift src unset with
  | (q', some _) => q.len + src.len ≤ q.max ∧ q'.content = src.content ++ q.content
  | (q', none) => q.max < q.len + src.len ∧ q' = q

/-- The bytes that lie at the start of the storage, behind the wrap. -/
def wrapped (q : Queue) : Nat := q.len - min (q.max - q.off) q.len

variable {q : Queue} {n : Nat}

theorem content_shrink (q : Queue) (n : Nat) (le : n ≤ q.len) :
    ({ q with len := n } : Queue).content = q.content.take n := by
  simp [content, ← List.map_take, List.take_range, Nat.min_eq_left le]

/-- Content in one piece starts at the address that `mpt_queue_data` returns. -/
theorem read_front (v : q.Valid) (whole : q.wrapped = 0) (le : n ≤ q.len) :
    q.mem.read (q.base + q.off) n = q.content.take n := by
  unfold wrapped at whole
  rw [content_split v, whole, Mem.read_zero, List.append_nil, Mem.take_read]
  congr 1
  omega

/-- Behind the wrap lie the last bytes. -/
theorem read_wrapped (v : q.Valid) (le : n ≤ q.wrapped) :
    q.mem.read (q.base + (q.wrapped - n)) n = q.content.drop (q.len - n) := by
  unfold wrapped at *
  have cut : q.len - n = (q.mem.read (q.base + q.off) (min (q.max - q.off) q.len)).length +
      (q.len - min (q.max - q.off) q.len - n) := by
    rw [Mem.length_read]
    omega
  rw [content_split v, cut, ← List.drop_drop, List.drop_left, Mem.drop_read _ _ _ _ (by omega)]
  congr 1
  omega

theorem pops_iff (v : q.Valid) (some : 0 < n) (target : Mem Byte) :
    q.Pops n target ↔ q.len < n ∨
      if q.wrapped = 0 then q.content.take n = q.content.drop (q.len - n) else n ≤ q.wrapped := by
  have split : q.len - min (q.max - q.off) q.len = q.wrapped := rfl
  unfold Pops pop
  simp only [data_eq, split]
  by_cases whole : q.wrapped = 0
  · have all : min (q.max - q.off) q.len = q.len := by
      unfold wrapped at whole
      omega
    rw [if_pos whole, if_pos whole, all]
    by_cases excess : q.len < n
    · rw [if_pos excess]
      exact iff_of_true excess (.inl excess)
    · rw [if_neg excess]
      have le : n ≤ q.len := Nat.le_of_not_lt excess
      simp only [read_front v whole le, content_shrink q _ (Nat.sub_le _ _), and_true, excess,
        false_or, le, true_and]
  rw [if_neg whole, if_neg whole]
  by_cases behind : n ≤ q.wrapped
  · rw [if_neg (Nat.not_lt.mpr behind)]
    refine iff_of_true ⟨?_, read_wrapped v behind, content_shrink q _ (Nat.sub_le _ _)⟩
      (.inr behind)
    exact Nat.le_trans behind (Nat.sub_le _ _)
  · rw [if_pos (Nat.lt_of_not_le behind)]
    by_cases excess : min (q.max - q.off) q.len < n - q.wrapped
    · rw [if_pos excess]
      have more : q.len < n := by
        unfold wrapped at excess
        omega
      exact iff_of_true more (.inl more)
    · -- what lies behind the wrap is not removed
      rw [if_neg excess]
      refine iff_of_false ?_ ?_
      · rintro ⟨_, _, kept⟩
        have sizes := congrArg List.length kept
        simp only [length_content, List.length_take] at sizes
        unfold wrapped at *
        omega
      · rintro (more | le)
        · unfold wrapped at *
          omega
        · exact behind le

theorem pre_excess (v : q.Valid) (room : q.len < q.max) (unset : Nat × Nat)
    (excess : q.max - q.len < n) : q.pre n unset = .error .missingBuffer := by
  have offLe := v.off_le
  unfold pre empty
  rw [if_neg (by omega)]
  by_cases before : q.max - q.len ≤ q.off
  · rw [if_pos before]
    simp only [Nat.add_zero]
    rw [if_pos excess]
  · rw [if_neg before]
    simp only
    rw [if_pos (by omega)]

/-- Behind what was reserved in front lies the content. -/
theorem content_pre {off : Nat} (place : off + n = q.off ∨ off + n = q.off + q.max) :
    ({ q with off := off, len := q.len + n } : Queue).content.drop n = q.content := by
  apply List.ext_getElem
  · simp
  · intro i _ _
    rw [List.getElem_drop, getElem_content, getElem_content]
    simp only [← Nat.add_assoc]
    rcases place with eq | eq
    · rw [eq]
    · rw [eq, Nat.add_right_comm, Nat.add_mod_right]

/-- The bytes go in front of a queue with room when the elements left can be counted. -/
theorem unshifts_room (v : q.Valid) (room : q.len < q.max) (src : Data) (unset : Nat × Nat) :
    q.Unshifts src unset ↔
      q.max < q.len + src.len ∨ overInt ((q.max - q.len - src.len) / src.len) = false := by
  unfold Unshifts unshift
  by_cases fits : src.len ≤ q.max - q.len
  · obtain ⟨off, eq, offLe, place⟩ := pre_counts v room unset fits
    have v' : ({ q with off := off, len := q.len + src.len } : Queue).Valid :=
      ⟨offLe, by simp only; omega⟩
    rw [eq]
    simp only
    by_cases wide : overInt ((q.max - q.len - src.len) / src.len) = true
    · rw [if_pos wide, wide]
      refine iff_of_false ?_ ?_
      · rintro ⟨more, _⟩
        omega
      · rintro (more | none)
        · omega
        · cases none
    · rw [if_neg wide]
      refine iff_of_true ?_ (.inr (Bool.eq_false_iff.mpr wide))
      rcases setRange_spec v' 0 src with ⟨_, m, ret', stored, cells⟩ | ⟨_, excess, _⟩
      · rw [stored]
        refine ⟨by omega, cells.trans ?_⟩
        rw [Nat.zero_add, content_pre place]
        rfl
      · simp only at excess
        omega
  · rw [pre_excess v room unset (by omega)]
    exact iff_of_true ⟨by omega, rfl⟩ (.inl (by omega))

/-- On a full queue the sizes that are compared are not those of the queue. -/
theorem unshifts_full (v : q.Valid) (full : ¬ q.len < q.max) {src : Data} (some : 0 < src.len)
    (unset : Nat × Nat) :
    q.Unshifts src unset ↔ (unset.1 + unset.2) % 2 ^ 64 < src.len := by
  have lenLe := v.len_le
  have nothing : q.empty = none := by
    unfold empty
    rw [if_pos (by omega)]
  unfold Unshifts unshift pre
  rw [nothing]
  simp only
  by_cases less : (unset.1 + unset.2) % 2 ^ 64 < src.len
  · rw [if_pos less]
    exact iff_of_true ⟨by omega, rfl⟩ less
  · rw [if_neg less]
    refine iff_of_false ?_ less
    have bound : src.len < 2 ^ 64 := by omega
    -- the length is another one in any case
    have grown : (q.len + src.len) % 2 ^ 64 ≠ q.len := by omega
    simp only
    split
    · next eq =>
        rintro ⟨fits, _⟩
        omega
    · next eq =>
        rintro ⟨_, same⟩
        split at eq
        · cases eq
          exact grown (congrArg Queue.len same)
        · split at eq
          · cases eq
            exact grown (congrArg Queue.len same)
          · cases eq

theorem unshifts_iff (v : q.Valid) {src : Data} (some : 0 < src.len) (unset : Nat × Nat) :
    q.Unshifts src unset ↔
      if q.len < q.max then
        q.max < q.len + src.len ∨ overInt ((q.max - q.len - src.len) / src.len) = false
      else (unset.1 + unset.2) % 2 ^ 64 < src.len := by
  by_cases room : q.len < q.max
  · rw [if_pos room]
    exact unshifts_room v room src unset
  · rw [if_neg room]
    exact unshifts_full v room some unset

/-- `mpt_qpop` takes the last bytes if and only if they lie behind the wrap, or if the
    content in one piece starts with the same; `mpt_qunshift` adds bytes to the start if
    and only if there is room and the elements left can be counted in an `int`, or on a full
    queue what stands in two unset variables is less. -/
theorem ends_when (v : q.Valid) (some : 0 < n) (target : Mem Byte) (src : Data)
    (data : 0 < src.len) (unset : Nat × Nat) :
    (q.Pops n target ↔ q.len < n ∨
      if q.wrapped = 0 then q.content.take n = q.content.drop (q.len - n) else n ≤ q.wrapped) ∧
    (q.Unshifts src unset ↔
      if q.len < q.max then
        q.max < q.len + src.len ∨ overInt ((q.max - q.len - src.len) / src.len) = false
      else (unset.1 + unset.2) % 2 ^ 64 < src.len) :=
  ⟨pops_iff v some target, unshifts_iff v data unset⟩

/-- A queue of four bytes that starts at `off` with `len` of them in use. -/
def fourBytes (off len : Nat) : Queue := ⟨fun a => .ofNat a, 16, len, 4, off⟩

theorem ends_wrapped : (fourBytes 3 3).Pops 2 (fun _ => 0) ∧
    (fourBytes 3 3).Unshifts (.bytes [7]) (0, 0) := by
  obtain ⟨pops, unshifts⟩ := ends_when (q := fourBytes 3 3) (n := 2) ⟨by decide, by decide⟩
    (by decide) (fun _ => 0) (.bytes [7]) (by decide) (0, 0)
  exact ⟨pops.mpr (by decide), unshifts.mpr (by decide)⟩

/-- From the bytes 16, 17, 18 the last one taken is 16, and a full queue takes another byte. -/
theorem first_byte_popped :
    ((fourBytes 0 3).pop 1 (some fun _ => 0)).map Prod.snd = some [16] ∧
      ¬ (fourBytes 0 3).Pops 1 (fun _ => 0) ∧
      ¬ (fourBytes 0 4).Unshifts (.bytes [7]) (0, 1) := by
  refine ⟨by decide, ?_, ?_⟩
  · rw [pops_iff ⟨by decide, by decide⟩ (by decide)]
    decide
  · rw [unshifts_iff ⟨by decide, by decide⟩ (by decide)]
    decide

end Mpt.Queue
