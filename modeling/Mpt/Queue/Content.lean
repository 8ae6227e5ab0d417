import Mpt.Queue.Ring

/-! # Queue operations on the logical content

Positions of the ring are resolved once (`wrap_eq`); every operation is then
described by what it does to `Queue.content`.
-/

namespace Mpt.Queue

/-- A logical position wraps at most once. -/
theorem wrap_eq {start cap i : Nat} (start_le : start ≤ cap) (inside : i < cap) :
    (start + i) % cap = if start + i < cap then start + i else start + i - cap := by
  split
  · exact Nat.mod_eq_of_lt ‹_›
  · rw [Nat.mod_eq_sub_mod (by omega), Nat.mod_eq_of_lt (by omega)]

theorem wrap_inj {start cap i j : Nat} (start_le : start ≤ cap) (hi : i < cap) (hj : j < cap)
    (same : (start + i) % cap = (start + j) % cap) : i = j := by
  rw [wrap_eq start_le hi, wrap_eq start_le hj] at same
  split at same <;> split at same <;> omega

theorem wrap_lt {start cap i : Nat} (start_le : start ≤ cap) (inside : i < cap) :
    (start + i) % cap < cap := by
  rw [wrap_eq start_le inside]
  split <;> omega

@[simp] theorem length_content (q : Queue) : q.content.length = q.len := by
  simp [content]

@[simp] theorem getElem_content (q : Queue) (i : Nat) (h : i < q.content.length) :
    q.content[i] = q.mem (q.base + (q.off + i) % q.max) := by
  simp [content]

theorem data_eq (q : Queue) : q.data = (q.base + q.off, min (q.max - q.off) q.len) := by
  simp only [data, Prod.mk.injEq, true_and]
  split <;> omega

/-- The content lies in the two parts `mpt_queue_data` describes. -/
theorem content_split {q : Queue} (v : q.Valid) :
    q.content = q.mem.read (q.base + q.off) (min (q.max - q.off) q.len) ++
      q.mem.read q.base (q.len - min (q.max - q.off) q.len) := by
  have := v.off_le
  have := v.len_le
  apply List.ext_getElem
  · rw [length_content, List.length_append, Mem.length_read, Mem.length_read]
    omega
  · intro i hi _
    rw [length_content] at hi
    rw [getElem_content, wrap_eq v.off_le (by omega)]
    by_cases low : q.off + i < q.max
    · rw [if_pos low, List.getElem_append_left (by simp; omega), Mem.getElem_read, Nat.add_assoc]
    · have behind : (q.mem.read (q.base + q.off) (min (q.max - q.off) q.len)).length ≤ i := by
        simp
        omega
      rw [if_neg low, List.getElem_append_right behind, Mem.getElem_read, Mem.length_read]
      congr 2
      omega

/-- Offset after dropping `n` bytes from the front. -/
def advance (q : Queue) (n : Nat) : Nat :=
  if min (q.max - q.off) q.len ≤ n then n - min (q.max - q.off) q.len else q.off + n

/-- The queue with the first `n` bytes dropped. -/
def dropFront (q : Queue) (n : Nat) : Queue :=
  { q with len := q.len - n, off := q.advance n }

theorem advance_wrap {q : Queue} (v : q.Valid) (h : n + i < q.len) :
    (q.advance n + i) % q.max = (q.off + (n + i)) % q.max := by
  have := v.off_le
  unfold advance
  split
  · have wrapped : q.off + (n + i) = q.max + (n - min (q.max - q.off) q.len + i) := by omega
    rw [wrapped, Nat.add_mod_left]
  · rw [Nat.add_assoc]

theorem advance_le {q : Queue} (v : q.Valid) (h : n ≤ q.len) : q.advance n ≤ q.max := by
  have := v.off_le
  have := v.len_le
  unfold advance
  split <;> omega

theorem dropFront_valid {q : Queue} (v : q.Valid) (h : n ≤ q.len) : (q.dropFront n).Valid :=
  ⟨advance_le v h, by have := v.len_le; simp only [dropFront]; omega⟩

theorem content_dropFront {q : Queue} (v : q.Valid) (n : Nat) :
    (q.dropFront n).content = q.content.drop n := by
  apply List.ext_getElem
  · simp [dropFront]
  · intro i hi _
    have inside : n + i < q.len := by simp [dropFront] at hi; omega
    rw [getElem_content, List.getElem_drop, getElem_content]
    simp only [dropFront, advance_wrap v inside]

/-- `mpt_queue_crop` from the start of the queue. -/
theorem crop_front (q : Queue) (n : Nat) :
    (n ≤ q.len ∧ ∃ ret, q.crop 0 n = .ok (q.dropFront n, ret)) ∨
      (q.len < n ∧ q.crop 0 n = .error .badArgument) := by
  simp only [crop, data_eq, if_pos, dropFront, advance]
  by_cases excess : q.len < n
  · exact .inr ⟨excess, if_pos (by omega)⟩
  · refine .inl ⟨by omega, ?_⟩
    rw [if_neg (by omega)]
    split <;> exact ⟨_, rfl⟩

/-- The lookup of a start position drops what lies before it. -/
theorem segment_spec {q : Queue} (v : q.Valid) (pos : Nat) :
    (pos ≤ q.len ∧ ∃ off ret, q.segment pos = .ok ({ q with len := q.len - pos, off := off }, ret) ∧
        off ≤ q.max ∧ ∀ i, pos + i < q.len → (off + i) % q.max = (q.off + (pos + i)) % q.max) ∨
      (q.len < pos ∧ q.segment pos = .error .badArgument) := by
  by_cases start : pos = 0
  · subst start
    refine .inl ⟨by omega, q.off, 0, by simp [segment], v.off_le, ?_⟩
    intro i _
    rw [Nat.zero_add]
  · simp only [segment, if_neg start]
    rcases q.crop_front pos with ⟨fits, ret, eq⟩ | ⟨excess, eq⟩
    · refine .inl ⟨fits, q.advance pos, ?_⟩
      rw [eq]
      exact ⟨_, rfl, advance_le v fits, fun i h => advance_wrap v h⟩
    · exact .inr ⟨excess, by rw [eq]⟩

/-- Storing through the two parts of a ring segment assigns exactly its cells. -/
theorem write_parts {mem m : Mem Byte} {base start cap low : Nat} (l : List Byte)
    (start_le : start ≤ cap) (fits : l.length ≤ cap) (split : low = min (cap - start) l.length)
    (stored : m = (mem.write (base + start) (l.take low)).write base (l.drop low)) :
    (∀ i (h : i < l.length), m (base + (start + i) % cap) = l[i]) ∧
      ∀ p, p < cap → (∀ i, i < l.length → (start + i) % cap ≠ p) → m (base + p) = mem (base + p) := by
  constructor
  · intro i h
    rw [wrap_eq start_le (by omega), stored]
    by_cases lower : start + i < cap
    · have inside : i < (l.take low).length := by simp; omega
      rw [if_pos lower, Mem.write_outside _ _ (.inr (by simp; omega)), ← Nat.add_assoc,
        Mem.write_inside _ _ _ inside, List.getElem_take]
    · have inside : start + i - cap < (l.drop low).length := by simp; omega
      rw [if_neg lower, Mem.write_inside _ _ _ inside, List.getElem_drop]
      congr 1
      omega
  · intro p hp untouched
    have high : ¬ p < l.length - low := by
      intro inside
      apply untouched (p + low) (by omega)
      rw [wrap_eq start_le (by omega), if_neg (by omega)]
      omega
    have lower : p < start ∨ start + low ≤ p := by
      by_contra inside
      apply untouched (p - start) (by omega)
      rw [wrap_eq start_le (by omega), if_pos (by omega)]
      omega
    rw [stored, Mem.write_outside _ _ (by simp; omega), Mem.write_outside _ _ (by simp; omega)]

theorem content_store {q : Queue} (v : q.Valid) {start pos : Nat} (l : List Byte)
    (fits : pos + l.length ≤ q.len) (start_le : start ≤ q.max)
    (at_pos : ∀ i, pos + i < q.len → (start + i) % q.max = (q.off + (pos + i)) % q.max)
    {low : Nat} (split : low = min (q.max - start) l.length) {m : Mem Byte}
    (stored : m = (q.mem.write (q.base + start) (l.take low)).write q.base (l.drop low)) :
    ({ q with mem := m } : Queue).content =
      q.content.take pos ++ l ++ q.content.drop (pos + l.length) := by
  have lenLe := v.len_le
  obtain ⟨inside, outside⟩ := write_parts l start_le (by omega) split stored
  -- a position of the queue that the segment does not cover
  have kept : ∀ j, j < q.len → j < pos ∨ pos + l.length ≤ j →
      m (q.base + (q.off + j) % q.max) = q.mem (q.base + (q.off + j) % q.max) := by
    intro j hj apart
    apply outside _ (wrap_lt v.off_le (by omega))
    intro i hi same
    rw [at_pos i (by omega)] at same
    have := wrap_inj v.off_le (by omega) (by omega) same
    omega
  apply List.ext_getElem
  · simp
    omega
  · intro j hj _
    rw [length_content] at hj
    refine (getElem_content _ j _).trans ?_
    change m (q.base + (q.off + j) % q.max) = _
    by_cases before : j < pos
    · rw [List.getElem_append_left (by simp; omega), List.getElem_append_left (by simp; omega),
        List.getElem_take, getElem_content]
      exact kept j hj (.inl before)
    · by_cases within : j < pos + l.length
      · obtain ⟨i, rfl⟩ := Nat.exists_eq_add_of_le (show pos ≤ j by omega)
        have hi : i < l.length := by omega
        have taken : (q.content.take pos).length = pos := by
          rw [List.length_take, length_content]
          omega
        rw [List.getElem_append_left (by simp; omega),
          List.getElem_append_right (by omega), ← at_pos i (by omega), inside i hi]
        congr 1
        omega
      · have ends : (q.content.take pos ++ l).length = pos + l.length := by simp; omega
        rw [List.getElem_append_right (by omega), List.getElem_drop, getElem_content]
        refine (kept j hj (.inr (by omega))).trans ?_
        congr 3
        omega

/-- `mpt_queue_set` overwrites a range of the content or fails. -/
theorem setRange_spec {q : Queue} (v : q.Valid) (pos : Nat) (src : Data) :
    ((src.len = 0 ∨ pos + src.len ≤ q.len) ∧
        ∃ m ret, q.setRange pos src = .ok ({ q with mem := m }, ret) ∧
          ({ q with mem := m } : Queue).content =
            q.content.take pos ++ src.content ++ q.content.drop (pos + src.len)) ∨
      (src.len ≠ 0 ∧ q.len < pos + src.len ∧ ∃ e, q.setRange pos src = .error e) := by
  by_cases nothing : src.len = 0
  · have empty : src.content = [] := List.eq_nil_of_length_eq_zero (by simp [nothing])
    refine .inl ⟨.inl nothing, q.mem, 0, by simp [setRange, nothing], ?_⟩
    simp [nothing, empty]
  · simp only [setRange, if_neg nothing]
    rcases segment_spec v pos with ⟨fits, off, ret, eq, off_le, at_pos⟩ | ⟨excess, eq⟩
    · simp only [eq, bind, Except.bind, data_eq]
      by_cases room : q.len - pos < src.len
      · exact .inr ⟨nothing, by omega, _, by rw [if_pos room]⟩
      · rw [if_neg room]
        refine .inl ⟨.inr (by omega), _, _, rfl, ?_⟩
        have stored := content_store v src.content (by simp; omega) off_le at_pos
          (by rw [Data.length_content]) rfl
        simpa only [Data.length_content] using stored
    · refine .inr ⟨nothing, by omega, .badArgument, ?_⟩
      simp [eq, bind, Except.bind]

/-- `mpt_queue_get` reads a range of the content or fails. -/
theorem getRange_spec {q : Queue} (v : q.Valid) (pos len : Nat) :
    ((len = 0 ∨ pos + len ≤ q.len) ∧ ∀ wanted,
        ∃ ret, q.getRange pos len wanted =
          .ok (if wanted then (q.content.drop pos).take len else [], ret)) ∨
      (len ≠ 0 ∧ q.len < pos + len ∧ ∀ wanted, ∃ e, q.getRange pos len wanted = .error e) := by
  by_cases nothing : len = 0
  · refine .inl ⟨.inl nothing, fun wanted => ⟨0, ?_⟩⟩
    cases wanted <;> simp [getRange, nothing]
  · simp only [getRange, if_neg nothing]
    rcases segment_spec v pos with ⟨fits, off, ret, eq, off_le, at_pos⟩ | ⟨excess, eq⟩
    · simp only [eq, bind, Except.bind, data_eq]
      by_cases room : q.len - pos < len
      · exact .inr ⟨nothing, by omega, fun _ => ⟨_, by rw [if_pos room]⟩⟩
      · refine .inl ⟨.inr (by omega), fun wanted => ?_⟩
        rw [if_neg room]
        have lenLe := v.len_le
        let t : Queue := { q with len := len, off := off }
        have tv : t.Valid := ⟨off_le, by simp only [t]; omega⟩
        have bytes : (q.content.drop pos).take len = t.content := by
          apply List.ext_getElem
          · simp [t]
            omega
          · intro i hi hi'
            simp only [length_content, t] at hi'
            rw [List.getElem_take, List.getElem_drop, getElem_content, getElem_content,
              ← at_pos i (by omega)]
        rw [bytes, content_split tv]
        exact ⟨_, rfl⟩
    · exact .inr ⟨nothing, by omega, fun _ => ⟨.badArgument, by simp [eq, bind, Except.bind]⟩⟩

/-- Space reported by `mpt_queue_empty`. -/
theorem empty_spec {q : Queue} (v : q.Valid) :
    (q.len = q.max ∧ q.empty = none) ∨
      (q.len < q.max ∧ ∃ start low high, q.empty = some (start, low, high) ∧
        low + high = q.max - q.len) := by
  have := v.len_le
  simp only [empty]
  by_cases full : q.max - q.len = 0
  · exact .inl ⟨by omega, if_pos full⟩
  · refine .inr ⟨by omega, ?_⟩
    rw [if_neg full]
    split
    · exact ⟨_, _, _, rfl, by omega⟩
    · exact ⟨_, _, _, rfl, by omega⟩

theorem post_spec {q : Queue} (v : q.Valid) (pos : 0 < n) :
    (q.len + n ≤ q.max ∧ ∃ left, q.post n = .ok ({ q with len := q.len + n }, left)) ∨
      (q.max < q.len + n ∧ q.post n = .error .missingBuffer) := by
  simp only [post]
  rcases empty_spec v with ⟨full, eq⟩ | ⟨room, start, low, high, eq, total⟩
  · exact .inr ⟨by omega, by rw [eq]⟩
  · rw [eq]
    by_cases fits : low + high < n
    · exact .inr ⟨by omega, by simp only [if_pos fits]⟩
    · exact .inl ⟨by omega, _, by simp only [if_neg fits]; rfl⟩

/-- The count of elements of this size that are left. -/
theorem post_counts {q : Queue} (v : q.Valid) (pos : 0 < n) (fits : q.len + n ≤ q.max) :
    q.post n = .ok ({ q with len := q.len + n }, (q.max - q.len - n) / n) := by
  simp only [post]
  rcases empty_spec v with ⟨full, eq⟩ | ⟨room, start, low, high, eq, total⟩
  · omega
  · rw [eq]
    simp only [total, if_neg (show ¬ q.max - q.len < n by omega)]

theorem content_grow (q : Queue) (n : Nat) :
    ({ q with len := q.len + n } : Queue).content.take q.len = q.content := by
  apply List.ext_getElem
  · simp
  · intro i _ _
    rw [List.getElem_take, getElem_content, getElem_content]

/-- `mpt_qpush` appends, and fails exactly when the data does not fit. -/
theorem push_spec {q : Queue} (v : q.Valid) (src : Data) (pos : 0 < src.len) :
    (q.len + src.len ≤ q.max ∧ ∃ m ret,
        q.push src = ({ q with mem := m, len := q.len + src.len }, .ok ret) ∧
        ({ q with mem := m, len := q.len + src.len } : Queue).content =
          q.content ++ src.content) ∨
      (q.max < q.len + src.len ∧ q.push src = (q, .error .missingBuffer)) := by
  simp only [push]
  rcases post_spec v pos with ⟨fits, left, eq⟩ | ⟨excess, eq⟩
  · let q' : Queue := { q with len := q.len + src.len }
    have v' : q'.Valid := ⟨v.off_le, fits⟩
    have start : q'.len - src.len = q.len := Nat.add_sub_cancel q.len src.len
    rw [eq]
    simp only
    rcases setRange_spec v' q.len src with ⟨_, m, ret, stored, cells⟩ | ⟨_, excess, _⟩
    · refine .inl ⟨fits, m, ret, ?_, ?_⟩
      · rw [show q.len + src.len - src.len = q.len from start, stored]
      · refine cells.trans ?_
        rw [content_grow q src.len, List.drop_eq_nil_of_le (by simp [q']), List.append_nil]
    · exact absurd excess (by simp [q'])
  · exact .inr ⟨excess, by rw [eq]⟩

/-- `mpt_qshift` returns and drops the first bytes, or fails and changes nothing. -/
theorem shift_spec {q : Queue} (v : q.Valid) (n : Nat) (wanted : Bool) :
    (n ≤ q.len ∧ q.shift n wanted = some (q.dropFront n, q.content.take n)) ∨
      q.shift n wanted = none := by
  have front := q.crop_front n
  simp only [shift, data_eq]
  have lenLe := v.len_le
  by_cases low : n ≤ min (q.max - q.off) q.len
  · rcases front with ⟨fits, ret, eq⟩ | ⟨excess, _⟩
    · refine .inl ⟨fits, ?_⟩
      rw [if_pos low, eq, content_split v, List.take_append_of_le_length (by simpa using low),
        Mem.take_read, Nat.min_eq_left low]
    · omega
  · rw [if_neg low]
    cases wanted with
    | false => exact .inr rfl
    | true =>
        rcases front with ⟨fits, ret, eq⟩ | ⟨excess, eq⟩
        · refine .inl ⟨fits, ?_⟩
          have parts : q.content.take n =
              q.mem.read (q.base + q.off) (min (q.max - q.off) q.len) ++
                q.mem.read q.base (n - min (q.max - q.off) q.len) := by
            rw [content_split v, List.take_append, List.take_of_length_le (by simp; omega),
              Mem.take_read, Mem.length_read]
            congr 2
            omega
          simp [eq, parts, show ¬ q.len < n by omega]
        · exact .inr (by simp [excess])

/-- With a target, taking bytes only fails beyond the content. -/
theorem shift_some {q : Queue} (v : q.Valid) (fits : n ≤ q.len) : q.shift n true ≠ none := by
  have := v.len_le
  simp only [shift, data_eq]
  split
  · simp
  · rw [if_neg (by simp), if_neg (by omega)]
    simp

/-- Where there is space, `mpt_qpre` moves the start back and counts the elements left. -/
theorem pre_counts {q : Queue} (v : q.Valid) (room : q.len < q.max) (unset : Nat × Nat)
    (fits : n ≤ q.max - q.len) :
    ∃ off, q.pre n unset =
        .ok ({ q with off := off, len := q.len + n }, (q.max - q.len - n) / n) ∧
      off ≤ q.max ∧ (off + n = q.off ∨ off + n = q.off + q.max) := by
  have offLe := v.off_le
  unfold pre empty
  rw [if_neg (by omega)]
  by_cases before : q.max - q.len ≤ q.off
  · rw [if_pos before]
    simp only [Nat.add_zero, ne_eq, not_true_eq_false, false_and, if_false]
    rw [if_neg (by omega)]
    refine ⟨_, rfl, ?_⟩
    split <;> omega
  · rw [if_neg before]
    simp only
    have all : q.max - q.len - q.off + q.off = q.max - q.len := by omega
    rw [all, if_neg (by omega)]
    refine ⟨_, rfl, ?_⟩
    split_ifs <;> omega

theorem pre_fits {q : Queue} (v : q.Valid) (room : q.len < q.max) (unset : Nat × Nat)
    (fits : n ≤ q.max - q.len) :
    ∃ off ret, q.pre n unset = .ok ({ q with off := off, len := q.len + n }, ret) ∧
      off ≤ q.max ∧ (off + n = q.off ∨ off + n = q.off + q.max) := by
  obtain ⟨off, eq, le, place⟩ := pre_counts v room unset fits
  exact ⟨off, _, eq, le, place⟩

end Mpt.Queue
