import Mpt.Array.Private

/-! # Raw buffers, whoever holds them

What detaching and appending do to untyped content: a new buffer takes the content
over, or nothing changes.  Memory can be turned down at any time.
-/

namespace Mpt.Heap

variable {env : Env} {w : World} {p : Nat} {b : Buffer}

/-- The raw buffer `b` at `p`. -/
structure Raw (w : World) (p : Nat) (b : Buffer) : Prop where
  cell : w.cells p = some b
  made : p < w.mallocs
  traits : b.traits = none
  used : b.used ≤ b.size

/-- Nothing that a caller looks at changes, apart from the memory asked for. -/
structure Calm (w w' : World) : Prop where
  mallocs : w.mallocs ≤ w'.mallocs
  fault : w'.fault = w.fault
  ledger : w'.ledger = w.ledger

theorem Calm.refl (w : World) : Calm w w := ⟨Nat.le_refl _, rfl, rfl⟩

theorem Calm.trans {w₁ w₂ w₃ : World} (h : Calm w₁ w₂) (h' : Calm w₂ w₃) : Calm w₁ w₃ :=
  ⟨Nat.le_trans h.mallocs h'.mallocs, h'.fault.trans h.fault, h'.ledger.trans h.ledger⟩

/-- Memory for every request. -/
def granting : Env := ⟨fun _ _ => 64, fun _ _ => 0, fun _ => true, fun _ _ => 0⟩

theorem granting_malloc : ¬ ∃ n size, granting.malloc n size = 0 := by
  rintro ⟨_, _, null⟩
  cases null

/-- The block that `_mpt_buffer_alloc` provides for `len` bytes. -/
structure Provided (w w' : World) (len : Nat) (flags : Flags) (b : Buffer) : Prop where
  cells : w'.cells = (w.store w.mallocs b).cells
  mallocs : w'.mallocs = w.mallocs + 1
  fault : w'.fault = (w.fault || decide (blockSize len < 64))
  size : b.size = blockSize len - 64
  used : b.used = 0
  refs : b.refs = 1
  flags : b.flags = flags
  raw : b.traits = none

theorem bufferAlloc_provided (env : Env) (w : World) (len : Nat) (flags : Flags) :
    (env.malloc w.mallocs (blockSize len) = 0 ∧ ∃ w', bufferAlloc env w len flags = (w', none) ∧
        w'.cells = w.cells ∧ w'.fault = w.fault) ∨
      ∃ w' b, bufferAlloc env w len flags = (w', some w.mallocs) ∧ Provided w w' len flags b := by
  have cases := bufferAlloc_cases env w len flags
  rcases alloc : bufferAlloc env w len flags with ⟨w', ret⟩
  rw [alloc] at cases
  cases cases with
  | refused cells _ _ _ =>
      unfold bufferAlloc at alloc
      simp only at alloc
      by_cases null : env.malloc w.mallocs (blockSize len) = 0
      · rw [if_pos null] at alloc
        refine .inl ⟨null, w', rfl, cells, ?_⟩
        rw [← (Prod.mk.inj alloc).1]
        unfold World.refuse
        split <;> rfl
      · rw [if_neg null] at alloc
        cases (Prod.mk.inj alloc).2
  | made cells mallocs _ _ fault _ fields =>
      refine .inr ⟨w', _, rfl, cells, mallocs, fault, ?_, ?_, ?_, ?_, ?_⟩ <;> rw [fields]

/-- A request of a size that does not wrap around depends on `malloc` only. -/
theorem bufferAlloc_small (env : Env) (w : World) {len : Nat} (flags : Flags)
    (small : len + 192 ≤ sizeLimit) :
    (env.malloc w.mallocs (blockSize len) = 0 ∧
        bufferAlloc env w len flags = (({ w with mallocs := w.mallocs + 1 } : World).refuse, none)) ∨
      ∃ b, bufferAlloc env w len flags =
          (({ w with mallocs := w.mallocs + 1 } : World).store w.mallocs b, some w.mallocs) ∧
        b.size = roomFor len ∧ b.used = 0 ∧ b.refs = 1 ∧ b.flags = flags ∧ b.traits = none := by
  have header : ¬ blockSize len < 64 := by
    rw [blockSize_eq small]
    omega
  have size : blockSize len - 64 = roomFor len := by
    rw [blockSize_eq small]
    omega
  unfold bufferAlloc
  simp only [if_neg (Nat.not_lt.mpr small)]
  by_cases null : env.malloc w.mallocs (blockSize len) = 0
  · rw [if_pos null]
    exact .inl ⟨null, rfl⟩
  · rw [if_neg null, if_neg header]
    exact .inr ⟨_, rfl, size, rfl, rfl, rfl, rfl⟩

theorem bufferSet_raw (env : Env) (l : Ledger) {b : Buffer} (raw : b.traits = none) {pos : Nat}
    {src : Data} (room : pos + src.len ≤ b.size) (small : pos + src.len < sizeLimit) :
    bufferSet env l b none pos src =
      (l, { b.put pos src.content with used := max b.used (pos + src.len) }, .ok 0) := by
  unfold bufferSet
  simp only [raw]
  rw [if_neg (by omega), if_neg (by omega), if_neg (by simp)]

theorem length_bufferContent (b : Buffer) : b.content.length = b.used := Mem.length_read _ _ _

/-- Detaching raw content leaves it where it is, moves or copies it to a buffer with one
    holder, or fails and changes nothing. -/
theorem bufferDetach_raw (env : Env) (h : Raw w p b) {len : Nat} (fits : b.used ≤ len)
    (small : len + 192 ≤ sizeLimit) :
    ∃ w', Calm w w' ∧
      ((bufferDetach env w p len = (w', none) ∧ w'.cells = w.cells ∧
          (b.pinned ∨ ∃ n size, env.malloc n size = 0)) ∨
        ∃ q b', bufferDetach env w p len = (w', some q) ∧ Raw w' q b' ∧ b'.used = b.used ∧
          b'.content = b.content ∧ len ≤ b'.size ∧
          (w' = w ∧ q = p ∧ b' = b ∧ b.flags.immutable = false ∨
            b'.refs = 1 ∧ b'.flags.immutable = false ∧ ¬ b.pinned)) := by
  have sized : (b.traits.any fun traits => decide (traits.size = 0)) = false := by
    simp [h.traits]
  have len_eq : detachSize b.traits len = len := by rw [h.traits]; rfl
  by_cases keep : b.refs < 2 ∧ detachSize b.traits len ≤ b.size ∧ b.flags.immutable = false
  · refine ⟨w, .refl w, .inr ⟨p, b, detach_kept h.cell sized keep, h, rfl, rfl, ?_,
      .inl ⟨rfl, rfl, rfl, keep.2.2⟩⟩⟩
    rw [← len_eq]
    exact keep.2.1
  by_cases pinned : b.pinned
  · exact ⟨w, .refl w, .inl ⟨detach_pinned h.cell sized keep pinned, rfl, .inl pinned⟩⟩
  rcases bufferAlloc_small env w { b.flags with immutable := false } small with
    ⟨null, eq⟩ | ⟨next, eq, size, used, refs, flags, traits⟩
  · rw [← len_eq] at eq
    exact ⟨({ w with mallocs := w.mallocs + 1 } : World).refuse, ⟨Nat.le_succ _, rfl, rfl⟩,
      .inl ⟨detach_refused h.cell sized keep pinned eq, rfl, .inr ⟨_, _, null⟩⟩⟩
  have room := le_roomFor len
  have alloc := eq
  rw [← len_eq] at alloc
  rcases lower : refcountLower b.refs with ⟨left, _ | _⟩
  · have set := bufferSet_raw env w.ledger (b := { next with traits := b.traits }) h.traits
      (show 0 + (Data.bytes b.content).len ≤ next.size by
        simp only [Data.len, length_bufferContent]
        omega)
      (by
        simp only [Data.len, length_bufferContent]
        omega)
    have copied := detach_copied h.cell sized keep pinned alloc (World.store_self _ _ _) lower
    have total : max next.used (0 + (Data.bytes b.content).len) = b.used := by
      simp only [Data.len, length_bufferContent, used]
      omega
    rw [h.traits] at copied set
    simp only [total] at set
    simp only [World.store] at copied
    rw [set] at copied
    refine ⟨_, ?_, .inr ⟨_, _, copied, ⟨if_pos rfl, Nat.lt_succ_self _, rfl, ?_⟩,
      rfl, ?_, ?_, .inr ⟨refs, ?_, pinned⟩⟩⟩
    · exact ⟨Nat.le_succ _, rfl, rfl⟩
    · simp only [Buffer.put]
      omega
    · simp only [Buffer.content, Buffer.put, Data.content]
      have := Mem.read_write_self next.mem (next.base + 0) (b.mem.read b.base b.used)
      rwa [Mem.length_read] at this
    · simp only [Buffer.put]
      omega
    · simp only [Buffer.put, flags]
  · have moved := detach_moved h.cell sized keep pinned alloc (World.store_self _ _ _) lower
    have kept : shrink w.ledger b (detachSize b.traits len) = (w.ledger, b.used) := by
      unfold shrink
      rw [len_eq, if_neg (by omega)]
    simp only [World.store, kept] at moved
    rw [if_neg (by omega)] at moved
    have apart : w.mallocs ≠ p := Nat.ne_of_gt h.made
    refine ⟨_, ?_, .inr ⟨_, _, moved, 
      ⟨(if_neg apart).trans (if_pos rfl), Nat.lt_succ_self _, h.traits, ?_⟩, rfl, ?_, ?_,
      .inr ⟨refs, ?_, pinned⟩⟩⟩
    · exact ⟨Nat.le_succ _, rfl, rfl⟩
    · simp only [moveContent]
      omega
    · simp only [Buffer.content, moveContent]
      have := Mem.read_write_self next.mem next.base (b.mem.read b.base b.used)
      rwa [Mem.length_read] at this
    · simp only [moveContent]
      omega
    · simp only [moveContent, flags]

theorem content_put (b : Buffer) (l : List Byte) :
    (({ b with used := b.used + l.length } : Buffer).put b.used l).content = b.content ++ l := by
  simp only [Buffer.content, Buffer.put]
  rw [Mem.read_append, Mem.read_write_self, Mem.read_write_disjoint _ _ (.inl (Nat.le_refl _))]

/-- The end of an append where the space is there. -/
theorem appendAt_raw (h : Raw w p b) (src : Data) (room : b.used + src.len ≤ b.size) :
    ∃ w' b' addr, appendAt w p b.used src = (w', some p, some addr) ∧ Calm w w' ∧ Raw w' p b' ∧
      b'.content = b.content ++ src.content ∧ b'.used = b.used + src.len ∧ b'.size = b.size ∧
      b'.refs = b.refs ∧ b'.flags = b.flags := by
  unfold appendAt
  simp only [h.cell]
  by_cases nothing : src.len = 0
  · rw [if_pos nothing]
    have empty : src.content = [] := List.eq_nil_of_length_eq_zero (by simp [nothing])
    exact ⟨w, b, _, rfl, .refl w, h, by simp [empty], by omega, rfl, rfl, rfl⟩
  · rw [if_neg nothing]
    unfold poke
    simp only [Data.length_content]
    rw [if_neg (by omega)]
    refine ⟨_, _, _, rfl, ⟨Nat.le_refl _, rfl, rfl⟩, ⟨World.store_self _ _ _, h.made, h.traits, room⟩,
      ?_, rfl, rfl, rfl, rfl⟩
    have := content_put b src.content
    rwa [Data.length_content] at this

/-- `mpt_array_append` to raw content adds the data, or fails and changes nothing. -/
theorem arrayAppend_raw (env : Env) (h : Raw w p b) (src : Data)
    (small : b.used + src.len + 192 ≤ sizeLimit) :
    ∃ w', Calm w w' ∧
      ((arrayAppend env w (some p) src = (w', some p, none) ∧ w'.cells = w.cells ∧
          b.size < b.used + src.len ∧ (b.pinned ∨ ∃ n size, env.malloc n size = 0)) ∨
        ∃ q b' addr, arrayAppend env w (some p) src = (w', some q, some addr) ∧ Raw w' q b' ∧
          b'.content = b.content ++ src.content ∧ b'.used = b.used + src.len ∧
          (b.used + src.len ≤ b.size ∧ b'.size = b.size ∧ b'.refs = b.refs ∧
              b'.flags = b.flags ∨
            b.size < b.used + src.len ∧ b'.refs = 1 ∧ b'.flags.immutable = false ∧
              ¬ b.pinned)) := by
  have used := h.used
  unfold arrayAppend
  simp only [h.cell, h.traits, Option.isSome_none, Bool.false_eq_true, if_false]
  by_cases room : b.used + src.len ≤ b.size
  · rw [if_neg (by omega)]
    obtain ⟨w', b', addr, eq, calm, raw, content, size, same⟩ := appendAt_raw h src room
    exact ⟨w', calm, .inr ⟨p, b', addr, eq, raw, content, size, .inl ⟨room, same⟩⟩⟩
  rw [if_pos (by omega), if_neg (by omega)]
  obtain ⟨w₁, calm, ⟨eq, cells, why⟩ | ⟨q, b₁, eq, raw, size, content, enough, change⟩⟩ :=
    bufferDetach_raw env h (Nat.le_add_right b.used src.len) small
  · rw [eq]
    exact ⟨w₁, calm, .inl ⟨rfl, cells, by omega, why⟩⟩
  · rw [eq]
    obtain ⟨w', b', addr, eq', calm', raw', content', size', _, refs, flags⟩ :=
      appendAt_raw raw src (by omega)
    rw [size] at eq'
    simp only [eq']
    refine ⟨w', calm.trans calm', .inr ⟨q, b', addr, rfl, raw', by rw [content', content],
      by omega, .inr ⟨by omega, ?_⟩⟩⟩
    rcases change with ⟨_, _, rfl, _⟩ | ⟨single, mutable, free⟩
    · omega
    · exact ⟨by rw [refs, single], by rw [flags, mutable], free⟩

/-- Data appended to no array. -/
theorem arrayAppend_none (env : Env) (w : World) (src : Data) (small : src.len + 192 ≤ sizeLimit) :
    ∃ w', Calm w w' ∧
      ((arrayAppend env w none src = (w', none, none) ∧ w'.cells = w.cells ∧
          ∃ n size, env.malloc n size = 0) ∨
        ∃ q b' addr, arrayAppend env w none src = (w', some q, some addr) ∧ Raw w' q b' ∧
          b'.content = src.content ∧ b'.used = src.len ∧ b'.refs = 1 ∧
          b'.flags.immutable = false) := by
  unfold arrayAppend
  rcases bufferAlloc_small env w .none small with
    ⟨null, eq⟩ | ⟨b, eq, size, used, refs, flags, traits⟩
  · rw [eq]
    exact ⟨({ w with mallocs := w.mallocs + 1 } : World).refuse, ⟨Nat.le_succ _, rfl, rfl⟩,
      .inl ⟨rfl, rfl, _, _, null⟩⟩
  · have room := le_roomFor src.len
    have raw : Raw (({ w with mallocs := w.mallocs + 1 } : World).store w.mallocs b) w.mallocs b :=
      ⟨World.store_self _ _ _, Nat.lt_succ_self _, traits, by omega⟩
    obtain ⟨w', b', addr, eq', calm, raw', content, size', _, refs', flags'⟩ :=
      appendAt_raw raw src (by omega)
    rw [used] at eq'
    rw [eq]
    simp only [eq']
    have made : Calm w (({ w with mallocs := w.mallocs + 1 } : World).store w.mallocs b) :=
      ⟨Nat.le_succ _, rfl, rfl⟩
    refine ⟨w', made.trans calm, .inr ⟨_, b', addr, rfl, raw', ?_, by omega,
      by rw [refs', refs], by rw [flags', flags]; rfl⟩⟩
    rw [content, Buffer.content, used, Mem.read_zero, List.nil_append]

end Mpt.Heap
