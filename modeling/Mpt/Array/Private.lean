import Mpt.Array.Array

/-! # Raw buffers with a single holder

The case in which no operation has to look at others: allocation, detaching and
insertion on untyped content that one array holds.  As long as no request for
memory is turned down they succeed, and the content is the one expected.
-/

namespace Mpt.Heap

/-- The buffer `b` at `p` is raw and has one holder. -/
structure Private (w : World) (p : Nat) (b : Buffer) : Prop where
  cell : w.cells p = some b
  made : p < w.mallocs
  refs : b.refs = 1
  flags : b.flags = .none
  traits : b.traits = none
  base : b.base ≠ 0
  used : b.used ≤ b.size
  size : b.size % 128 = 64

variable {env : Env} {w : World} {p : Nat} {b : Buffer}

/-- A bigger buffer keeps its content. -/
theorem Private.store {w : World} {p : Nat} {b b' : Buffer} (h : Private w p b)
    (refs : b'.refs = b.refs) (flags : b'.flags = b.flags) (traits : b'.traits = b.traits)
    (base : b'.base = b.base) (size : b'.size = b.size) (used : b'.used ≤ b.size) :
    Private (w.store p b') p b' where
  cell := World.store_self _ _ _
  made := h.made
  refs := refs.trans h.refs
  flags := flags.trans h.flags
  traits := traits.trans h.traits
  base := by rw [base]; exact h.base
  used := by rw [size]; exact used
  size := by rw [size]; exact h.size

/-- An allocation that is not turned down. -/
theorem bufferAlloc_granted (env : Env) (w : World) (len : Nat) {w' : World} {ret : Option Nat}
    (alloc : bufferAlloc env w len .none = (w', ret)) (granted : w'.refused = false) :
    w.refused = false ∧ ret = some w.mallocs ∧
      ∃ b, Private w' w.mallocs b ∧ b.used = 0 ∧ b.size = roomFor len := by
  have cases := bufferAlloc_cases env w len .none
  rw [alloc] at cases
  cases cases with
  | refused cells mallocs ledger refused =>
      rw [refused] at granted
      cases granted
  | made cells mallocs ledger refused fault base fields =>
      rename_i b
      simp only [refused, Bool.or_eq_false_iff, decide_eq_false_iff_not, Nat.not_lt] at granted
      have size := blockSize_eq granted.2
      have room := roomFor_mod len
      have place : b.size = roomFor len := by
        rw [fields]
        simp only
        omega
      refine ⟨granted.1, rfl, b, ⟨?_, ?_, ?_, ?_, ?_, ?_, ?_, ?_⟩, ?_, place⟩
      · rw [cells, World.store_self]
      · omega
      · rw [fields]
      · rw [fields]
      · rw [fields]
      · omega
      · rw [fields]
        exact Nat.zero_le _
      · rw [place, room]
      · rw [fields]

/-- Memory that was refused stays refused. -/
theorem bufferAlloc_refused {len : Nat} {flags : Flags} {w' : World} {ret : Option Nat}
    (alloc : bufferAlloc env w len flags = (w', ret)) (granted : w'.refused = false) :
    w.refused = false := by
  have cases := bufferAlloc_cases env w len flags
  rw [alloc] at cases
  cases cases with
  | refused cells mallocs ledger refused =>
      rw [refused] at granted
      cases granted
  | made cells mallocs ledger refused fault base fields =>
      simp only [refused, Bool.or_eq_false_iff] at granted
      exact granted.1

@[simp] theorem bufferUnref_refused (w : World) (p : Nat) :
    (bufferUnref w p).refused = w.refused := by
  unfold bufferUnref
  split
  · rfl
  · split <;> rfl

theorem bufferDetach_refused {len : Nat} {w' : World} {ret : Option Nat}
    (detach : bufferDetach env w p len = (w', ret)) (granted : w'.refused = false) :
    w.refused = false := by
  unfold bufferDetach at detach
  split at detach
  · obtain ⟨rfl, _⟩ := Prod.mk.inj detach
    exact granted
  · rename_i b _
    split at detach
    · obtain ⟨rfl, _⟩ := Prod.mk.inj detach
      exact granted
    · simp only at detach
      split at detach
      · obtain ⟨rfl, _⟩ := Prod.mk.inj detach
        exact granted
      · split at detach
        · obtain ⟨rfl, _⟩ := Prod.mk.inj detach
          exact granted
        · rcases alloc : bufferAlloc env w (detachSize b.traits len)
            { b.flags with immutable := false } with ⟨w₁, ret₁⟩
          simp only [alloc] at detach
          refine bufferAlloc_refused alloc ?_
          cases ret₁ with
          | none =>
              obtain ⟨rfl, _⟩ := Prod.mk.inj detach
              exact granted
          | some n =>
              simp only at detach
              split at detach
              · obtain ⟨rfl, _⟩ := Prod.mk.inj detach
                exact granted
              · split at detach
                · split at detach
                  · obtain ⟨rfl, _⟩ := Prod.mk.inj detach
                    rw [bufferUnref_refused] at granted
                    exact granted
                  · obtain ⟨rfl, _⟩ := Prod.mk.inj detach
                    exact granted
                · obtain ⟨rfl, _⟩ := Prod.mk.inj detach
                  split at granted <;> exact granted

theorem poke_refused (w : World) (p : Nat) (b : Buffer) (off : Nat) (l : List Byte) :
    (poke w p b off l).refused = w.refused := by
  unfold poke
  split <;> rfl

theorem insertAt_refused (env : Env) (w : World) (p pos len : Nat) :
    (insertAt env w p pos len).1.refused = w.refused := by
  unfold insertAt
  split <;> rfl

theorem arrayInsert_refused {arr arr' : Array} {pos len : Nat} {w' : World} {ret : Option Nat}
    (insert : arrayInsert env w arr pos len = (w', arr', ret)) (granted : w'.refused = false) :
    w.refused = false := by
  unfold arrayInsert at insert
  split at insert
  · obtain ⟨rfl, _⟩ := insert
    cases granted
  · cases arr with
    | none =>
        simp only at insert
        rcases alloc : bufferAlloc env w ((len + pos) % sizeLimit) .none with ⟨w₁, ret₁⟩
        rw [alloc] at insert
        refine bufferAlloc_refused alloc ?_
        cases ret₁ with
        | none =>
            obtain ⟨rfl, _⟩ := insert
            exact granted
        | some q =>
            simp only at insert
            split at insert
            · obtain ⟨rfl, _⟩ := insert
              exact granted
            · obtain ⟨rfl, _⟩ := insert
              rwa [poke_refused] at granted
    | some p =>
        simp only at insert
        split at insert
        · obtain ⟨rfl, _⟩ := insert
          exact granted
        · rename_i b _
          generalize start : (if sizeLimit ≤ max pos b.used + len then w.refuse else w) = w₀
            at insert
          have plain : w₀.refused = false := by
            split at insert
            · rw [← insertAt_refused env w₀ p pos len, insert]
              exact granted
            · rcases detach : bufferDetach env w₀ p ((max pos b.used + len) % sizeLimit) with
                ⟨w₁, ret₁⟩
              rw [detach] at insert
              refine bufferDetach_refused detach ?_
              cases ret₁ with
              | none =>
                  obtain ⟨rfl, _⟩ := insert
                  exact granted
              | some q =>
                  simp only at insert
                  rw [← insertAt_refused env w₁ q pos len, insert]
                  exact granted
          rw [← start] at plain
          split at plain
          · cases plain
          · exact plain

/-- A private buffer after it was detached for `len` bytes. -/
structure Detached (w' : World) (b : Buffer) (len q : Nat) (b' : Buffer) : Prop where
  here : Private w' q b'
  used : b'.used = b.used
  size : b'.size = if len ≤ b.size then b.size else roomFor len
  mem : b'.mem.read b'.base b.used = b.mem.read b.base b.used

theorem bufferDetach_private (h : Private w p b) {len : Nat} (fits : b.used ≤ len)
    {w' : World} {ret : Option Nat} (detach : bufferDetach env w p len = (w', ret))
    (granted : w'.refused = false) :
    w.refused = false ∧ ∃ q b', ret = some q ∧ Detached w' b len q b' := by
  have sized : (b.traits.any fun traits => decide (traits.size = 0)) = false := by
    simp [h.traits]
  have len_eq : detachSize b.traits len = len := by rw [h.traits]; rfl
  have flags : ({ b.flags with immutable := false } : Flags) = .none := by rw [h.flags]; rfl
  by_cases room : len ≤ b.size
  · have keep : b.refs < 2 ∧ detachSize b.traits len ≤ b.size ∧ b.flags.immutable = false := by
      rw [h.refs, h.flags, len_eq]
      exact ⟨by decide, room, rfl⟩
    rw [detach_kept h.cell sized keep] at detach
    obtain ⟨rfl, rfl⟩ := Prod.mk.inj detach
    exact ⟨granted, p, b, rfl, h, rfl, by rw [if_pos room], rfl⟩
  have renew : ¬ (b.refs < 2 ∧ detachSize b.traits len ≤ b.size ∧ b.flags.immutable = false) := by
    rw [len_eq]
    exact fun keep => room keep.2.1
  have free : ¬ b.pinned := by
    unfold Buffer.pinned
    rw [h.refs]
    omega
  have lower : refcountLower b.refs = (0, true) := by rw [h.refs]; rfl
  rcases alloc : bufferAlloc env w len .none with ⟨w₁, ret₁⟩
  have asked : bufferAlloc env w (detachSize b.traits len) { b.flags with immutable := false } =
      (w₁, ret₁) := by rw [len_eq, flags, alloc]
  have cases := bufferAlloc_cases env w len .none
  rw [alloc] at cases
  cases cases with
  | refused cells mallocs ledger refused =>
      rw [detach_refused h.cell sized renew free asked] at detach
      obtain ⟨rfl, _⟩ := Prod.mk.inj detach
      rw [refused] at granted
      cases granted
  | made cells mallocs ledger refused fault base fields =>
      rename_i next
      have apart : w.mallocs ≠ p := Nat.ne_of_gt h.made
      have made : w₁.cells w.mallocs = some next := by rw [cells, World.store_self]
      have moved := detach_moved h.cell sized renew free asked made lower
      have kept : shrink w₁.ledger b (detachSize b.traits len) = (w₁.ledger, b.used) := by
        unfold shrink
        rw [len_eq, if_neg (by omega)]
      simp only [kept] at moved
      rw [moved] at detach
      obtain ⟨eq, rfl⟩ := Prod.mk.inj detach
      have plain : w₁.refused = false := by
        rw [← eq] at granted
        split at granted <;> exact granted
      obtain ⟨before, _, b₁, here, _, size⟩ := bufferAlloc_granted env w len alloc plain
      obtain rfl : next = b₁ := by
        have same := here.cell
        rw [made] at same
        exact Option.some.inj same
      have enough : ¬ next.size < b.used := by
        have := le_roomFor len
        omega
      rw [if_neg enough] at eq
      subst eq
      refine ⟨before, w.mallocs, moveContent { next with traits := b.traits } b b.used, rfl,
        ⟨?_, ?_, here.refs, here.flags, h.traits, here.base, ?_, here.size⟩, rfl, ?_, ?_⟩
      · rw [World.free_ne _ apart, World.store_self]
      · exact here.made
      · exact Nat.not_lt.mp enough
      · rw [if_neg room]
        exact size
      · have := Mem.read_write_self next.mem next.base (b.mem.read b.base b.used)
        rwa [Mem.length_read] at this

/-- Free bytes put into the content of a private buffer. -/
structure Inserted (w' : World) (b : Buffer) (pos len q : Nat) (b' : Buffer) : Prop where
  here : Private w' q b'
  used : b'.used = b.used + len
  front : b'.mem.read b'.base pos = b.mem.read b.base pos
  behind : b'.mem.read (b'.base + pos + len) (b.used - pos) =
    b.mem.read (b.base + pos) (b.used - pos)

/-- `mpt_buffer_insert` into raw content where the space is there. -/
theorem bufferInsert_raw (env : Env) (l : Ledger) {b : Buffer} (raw : b.traits = none)
    (mutable : b.flags.immutable = false) {pos len : Nat} (inside : pos ≤ b.used)
    (room : b.used + len ≤ b.size) (small : b.used + len < sizeLimit) :
    ∃ ret b', bufferInsert env l b pos len = (l, b', some ret) ∧
      (b' = { b with used := b.used + len } ∧ (b.used = pos ∨ len = 0) ∨
        b' = { b with used := b.used + len }.relocate (pos + len) pos (b.used - pos)) := by
  obtain ⟨base, size, used, refs, flags, traits, mem, elem⟩ := b
  simp only at raw mutable inside room small
  subst raw
  have total : (max pos used + len) % sizeLimit = used + len := by
    rw [Nat.max_eq_right inside, Nat.mod_eq_of_lt small]
  have place : used + len - (used - pos) = pos + len := by omega
  unfold bufferInsert
  simp only [total, mutable, Bool.false_eq_true, if_false, place]
  by_cases empty : used + len = 0
  · rw [if_pos empty]
    exact ⟨_, _, rfl, .inl ⟨by rw [show used = 0 by omega, show len = 0 by omega], by omega⟩⟩
  · rw [if_neg empty, if_neg (by omega)]
    by_cases last : used - pos = 0
    · simp only [if_pos last, if_neg (show ¬ used < pos by omega)]
      exact ⟨_, _, rfl, .inl ⟨rfl, by omega⟩⟩
    · simp only [if_neg last, Buffer.relocate, if_neg (show ¬ used < pos by omega)]
      exact ⟨_, _, rfl, .inr rfl⟩

theorem insertAt_private (env : Env) (h : Private w p b) {pos len : Nat} (inside : pos ≤ b.used)
    (room : b.used + len ≤ b.size) (small : b.used + len < sizeLimit) :
    ∃ w' b' ret, insertAt env w p pos len = (w', some p, some ret) ∧ w'.ledger = w.ledger ∧
      Inserted w' b pos len p b' := by
  obtain ⟨ret, b', insert, change⟩ := bufferInsert_raw env w.ledger h.traits
    (by rw [h.flags]; rfl) inside room small
  unfold insertAt
  simp only [h.cell, insert]
  refine ⟨_, b', ret, rfl, rfl, ?_⟩
  rcases change with ⟨rfl, last⟩ | rfl
  · refine ⟨h.store rfl rfl rfl rfl rfl room, rfl, rfl, ?_⟩
    rcases last with last | last
    · simp [last]
    · simp [last]
  · refine ⟨h.store rfl rfl rfl rfl rfl room, rfl, ?_, ?_⟩
    · exact Mem.read_move_disjoint _ (.inl (by simp only [Buffer.relocate]; omega))
    · have place : b.base + pos + len = b.base + (pos + len) := Nat.add_assoc _ _ _
      simp only [Buffer.relocate, place]
      exact Mem.read_move_self _ _ _ _

/-- `mpt_array_insert` inside of the content of a private buffer. -/
theorem arrayInsert_private (h : Private w p b) {pos len : Nat} (inside : pos ≤ b.used)
    {w' : World} {arr : Array} {ret : Option Nat}
    (insert : arrayInsert env w (some p) pos len = (w', arr, ret))
    (granted : w'.refused = false) :
    w.refused = false ∧ ret.isSome ∧
      ∃ q b', arr = some q ∧ Inserted w' b pos len q b' := by
  unfold arrayInsert at insert
  by_cases guard : longRoom pos < len
  · rw [if_pos guard] at insert
    obtain ⟨rfl, _⟩ := Prod.mk.inj insert
    cases granted
  rw [if_neg guard] at insert
  have shared : b.shared = false := by simp [Buffer.shared, h.refs]
  simp only [h.cell, Nat.max_eq_right inside, shared, Bool.false_eq_true, not_false_eq_true,
    and_true] at insert
  generalize start : (if sizeLimit ≤ b.used + len then w.refuse else w) = w₀ at insert
  have cells : w₀.cells = w.cells := by rw [← start]; split <;> rfl
  have mallocs : w₀.mallocs = w.mallocs := by rw [← start]; split <;> rfl
  have here : Private w₀ p b := ⟨by rw [cells]; exact h.cell, by rw [mallocs]; exact h.made,
    h.refs, h.flags, h.traits, h.base, h.used, h.size⟩
  have small : w₀.refused = false → w.refused = false ∧ b.used + len < sizeLimit := by
    intro plain
    rw [← start] at plain
    split at plain
    · cases plain
    · exact ⟨plain, by omega⟩
  by_cases fits : (b.used + len) % sizeLimit ≤ b.size
  · rw [if_pos fits] at insert
    have ledger : w'.refused = w₀.refused := by
      rw [← insertAt_refused env w₀ p pos len, insert]
    rw [ledger] at granted
    obtain ⟨plain, small⟩ := small granted
    rw [Nat.mod_eq_of_lt small] at fits
    obtain ⟨w₁, b₁, ret₁, eq, _, inserted⟩ := insertAt_private env here inside fits small
    rw [eq] at insert
    obtain ⟨rfl, rfl, rfl⟩ := insert
    exact ⟨plain, rfl, p, b₁, rfl, inserted⟩
  · rw [if_neg fits] at insert
    rcases detach : bufferDetach env w₀ p ((b.used + len) % sizeLimit) with ⟨w₁, ret₁⟩
    rw [detach] at insert
    have ledger : w₁.refused = false := by
      cases ret₁ with
      | none =>
          obtain ⟨rfl, _⟩ := insert
          exact granted
      | some q =>
          simp only at insert
          rw [← insertAt_refused env w₁ q pos len, insert]
          exact granted
    have plain : w₀.refused = false := bufferDetach_refused detach ledger
    obtain ⟨plain, small⟩ := small plain
    rw [Nat.mod_eq_of_lt small] at detach fits
    obtain ⟨_, q, b₁, rfl, detached⟩ := bufferDetach_private here (Nat.le_add_right _ _) detach ledger
    have used := detached.used
    have room : b₁.used + len ≤ b₁.size := by
      have := le_roomFor (b.used + len)
      rw [detached.size, if_neg fits]
      omega
    obtain ⟨w₂, b₂, ret₂, eq, _, inserted⟩ := insertAt_private env detached.here
      (show pos ≤ b₁.used by omega) room (by omega)
    simp only [eq] at insert
    obtain ⟨rfl, rfl, rfl⟩ := insert
    have whole := detached.mem
    refine ⟨plain, rfl, q, b₂, rfl, inserted.here, by rw [inserted.used, used], ?_, ?_⟩
    · rw [inserted.front, ← Nat.min_eq_left inside, ← Mem.take_read, ← Mem.take_read, whole]
    · have behind := inserted.behind
      rw [used] at behind
      rw [behind, ← Mem.drop_read _ _ _ _ inside, ← Mem.drop_read _ _ _ _ inside, whole]

end Mpt.Heap
