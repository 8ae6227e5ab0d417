import Mpt.Array.Raw

/-! # Elements of typed content

The loops over elements call functions that come with the content and can fail.  They change
bytes and elements only, so `mpt_buffer_set` keeps header and size of its buffer whatever
they do, and a copy to an empty buffer either has room for whole elements or is turned down.
-/

namespace Mpt.Heap

section Elements

/-! Loops over elements change bytes and elements only. -/

/-- The buffers have the same header. -/
structure SameHeader (b b' : Buffer) : Prop where
  base : b'.base = b.base
  size : b'.size = b.size
  used : b'.used = b.used
  refs : b'.refs = b.refs
  flags : b'.flags = b.flags

theorem SameHeader.refl (b : Buffer) : SameHeader b b := ⟨rfl, rfl, rfl, rfl, rfl⟩

theorem SameHeader.trans {b₁ b₂ b₃ : Buffer} (h : SameHeader b₁ b₂) (h' : SameHeader b₂ b₃) :
    SameHeader b₁ b₃ :=
  ⟨h'.base.trans h.base, h'.size.trans h.size, h'.used.trans h.used, h'.refs.trans h.refs,
    h'.flags.trans h.flags⟩

theorem construct_header (env : Env) (l : Ledger) (b : Buffer) (size off : Nat) :
    SameHeader b (construct env l b size off).2.1 := by
  unfold construct
  simp only
  split <;> exact ⟨rfl, rfl, rfl, rfl, rfl⟩

theorem finalizeAll_header (offs : List Nat) (l : Ledger) (b : Buffer) :
    SameHeader b (finalizeAll l b offs).2 := by
  induction offs generalizing l b with
  | nil => exact .refl b
  | cons off offs ih =>
      have rest := ih (finalize l b off).1 (finalize l b off).2
      exact ⟨rest.base, rest.size, rest.used, rest.refs, rest.flags⟩

theorem initAll_header (env : Env) (size : Nat) (offs : List Nat) (l : Ledger) (b : Buffer) :
    SameHeader b (initAll env l b size offs).2.1 ∧
      ∀ off, (initAll env l b size offs).2.2 = some off → off ∈ offs := by
  induction offs generalizing l b with
  | nil => exact ⟨.refl b, nofun⟩
  | cons first offs ih =>
      have one := construct_header env l b size first
      unfold initAll
      rcases made : construct env l b size first with ⟨l', b', _ | _⟩
      · rw [made] at one
        refine ⟨one, ?_⟩
        rintro off eq
        rw [← Option.some.inj eq]
        exact List.mem_cons_self
      · rw [made] at one
        obtain ⟨same, inside⟩ := ih l' b'
        exact ⟨one.trans same, fun off eq => List.mem_cons_of_mem _ (inside off eq)⟩

theorem copyAll_header (env : Env) (size : Nat) (hasSource : Bool) (offs : List Nat) (l : Ledger)
    (b : Buffer) (count : Nat) :
    SameHeader b (copyAll env l b size hasSource count offs).2.1 ∧
      ∀ off, (copyAll env l b size hasSource count offs).2.2.2 = some off → off ∈ offs := by
  induction offs generalizing l b count with
  | nil => exact ⟨.refl b, nofun⟩
  | cons first offs ih =>
      have from_ : SameHeader b
          (if hasSource then construct env l b size first else (l, b, false)).2.1 := by
        split
        · exact construct_header env l b size first
        · exact .refl b
      unfold copyAll
      rcases made : (if hasSource then construct env l b size first else (l, b, false)) with
        ⟨l', b', _ | _⟩
      · rw [made] at from_
        have default := construct_header env l' b' size first
        simp only [Bool.false_eq_true, if_false]
        rcases made' : construct env l' b' size first with ⟨l'', b'', _ | _⟩
        · rw [made'] at default
          refine ⟨from_.trans default, ?_⟩
          rintro off eq
          rw [← Option.some.inj eq]
          exact List.mem_cons_self
        · rw [made'] at default
          obtain ⟨same, inside⟩ := ih l'' b'' count
          exact ⟨(from_.trans default).trans same,
            fun off eq => List.mem_cons_of_mem _ (inside off eq)⟩
      · rw [made] at from_
        simp only [if_true]
        obtain ⟨same, inside⟩ := ih l' b' (count + 1)
        exact ⟨from_.trans same, fun off eq => List.mem_cons_of_mem _ (inside off eq)⟩

theorem mem_offsets {pos stop size off : Nat} (inside : off ∈ offsets pos stop size) :
    pos ≤ off ∧ off < stop := by
  unfold offsets at inside
  obtain ⟨i, range, rfl⟩ := List.mem_map.mp inside
  have below : i + 1 ≤ (stop - pos + (size - 1)) / size := List.mem_range.mp range
  have positive : 0 < size := by
    by_contra none
    have zero : size = 0 := by omega
    rw [zero, Nat.div_zero] at below
    omega
  have scaled := (Nat.le_div_iff_mul_le positive).mp below
  rw [Nat.succ_mul] at scaled
  omega

theorem offsets_none {pos stop : Nat} (size : Nat) (ends : stop ≤ pos) :
    offsets pos stop size = [] := by
  unfold offsets
  have count : (stop - pos + (size - 1)) / size = 0 := by
    rw [Nat.sub_eq_zero_of_le ends, Nat.zero_add, Nat.div_eq_zero_iff]
    omega
  rw [count]
  rfl

end Elements

section Setting

/-! What `mpt_buffer_set` leaves as it is -/

/-- The buffers have the same block, and the used size is inside of it. -/
structure SameBlock (b b' : Buffer) : Prop where
  size : b'.size = b.size
  refs : b'.refs = b.refs
  flags : b'.flags = b.flags
  used : b'.used ≤ b'.size

theorem SameHeader.block {b b' : Buffer} (h : SameHeader b b') {n : Nat} (inside : n ≤ b.size) :
    SameBlock b { b' with used := n } :=
  ⟨h.size, h.refs, h.flags, by rw [h.size]; exact inside⟩

/-- The elements from the source, and the end of those that were there before. -/
theorem copyAll_block (env : Env) {b b' : Buffer} (same : SameHeader b b') (traits : Traits)
    (l : Ledger) {size pos stop used : Nat} (hasSource : Bool) (inside : stop ≤ b.size)
    (before : used ≤ b.size) :
    SameBlock b (match copyAll env l b' size hasSource 0 (offsets pos stop size) with
      | (l, b, count, some off) =>
          let b := { b with used := off }
          let (l, b) := if traits.fini.isSome then
              finalizeAll l b (offsets off used size)
            else
              (l, b)
          (l, b, (.ok count : Except Error Nat))
      | (l, b, count, none) => (l, { b with used := max used stop }, .ok count)).2.1 := by
  obtain ⟨copied, within⟩ := copyAll_header env size hasSource (offsets pos stop size) l b' 0
  rcases copy : copyAll env l b' size hasSource 0 (offsets pos stop size) with
    ⟨l₁, b₁, count, _ | off⟩
  · rw [copy] at copied
    exact (same.trans copied).block (by omega)
  · rw [copy] at copied within
    have below := (mem_offsets (within off rfl)).2
    have tail : SameHeader { b₁ with used := off } (if traits.fini.isSome then
        finalizeAll l₁ { b₁ with used := off } (offsets off used size)
        else (l₁, { b₁ with used := off })).2 := by
      split
      · exact finalizeAll_header _ _ _
      · exact .refl _
    have block := (same.trans copied).block (show off ≤ b.size by omega)
    exact ⟨tail.size.trans block.size, tail.refs.trans block.refs,
      tail.flags.trans block.flags, by rw [tail.used, tail.size]; exact block.used⟩

theorem bufferSet_block (env : Env) (l : Ledger) {b : Buffer} (used : b.used ≤ b.size)
    (srcTraits : Option Traits) (pos : Nat) (src : Data) :
    SameBlock b (bufferSet env l b srcTraits pos src).2.1 := by
  have same : SameBlock b b := ⟨rfl, rfl, rfl, used⟩
  unfold bufferSet
  simp only
  by_cases limit : sizeLimit ≤ pos + src.len
  · rw [if_pos limit]
    exact same
  rw [if_neg limit]
  by_cases large : b.size < pos + src.len
  · rw [if_pos large]
    exact same
  rw [if_neg large]
  rcases elements : b.traits with _ | traits
  · simp only
    by_cases typed : srcTraits.isSome
    · rw [if_pos typed]
      exact same
    · rw [if_neg typed]
      exact ⟨rfl, rfl, rfl, by simp only [Buffer.put]; omega⟩
  · cases srcTraits with
      | none => exact same
      | some st =>
          simp only
          by_cases misfit : st.size = 0 ∨ pos % st.size ≠ 0 ∨ src.len % st.size ≠ 0
          · rw [if_pos misfit]
            exact same
          rw [if_neg misfit]
          by_cases other : traits ≠ st ∧ (traits.fini = none ∨ traits.fini ≠ st.fini ∨
              traits.size ≠ st.size)
          · rw [if_pos other]
            exact same
          rw [if_neg other]
          have ended : SameHeader b (if traits.fini.isSome then
              finalizeAll l b (offsets pos (b.used - b.used % st.size) st.size) else (l, b)).2 := by
            split
            · exact finalizeAll_header _ _ _
            · exact .refl b
          rcases fini : (if traits.fini.isSome then
              finalizeAll l b (offsets pos (b.used - b.used % st.size) st.size) else (l, b)) with
            ⟨l₁, b₁⟩
          rw [fini] at ended
          simp only
          by_cases noInit : st.init = true
          swap
          · rw [if_neg noInit]
            have size := ended.size
            simp only at size
            refine ⟨?_, ?_, ?_, ?_⟩
            · split <;> exact ended.size
            · split <;> exact ended.refs
            · split <;> exact ended.flags
            · split <;> simp only [Buffer.put] <;> omega
          rw [if_pos noInit]
          obtain ⟨gap, inside⟩ := initAll_header env st.size
            (offsets (b.used - b.used % st.size) pos st.size) l₁ b₁
          rcases init : initAll env l₁ b₁ st.size
            (offsets (b.used - b.used % st.size) pos st.size) with ⟨l₂, b₂, _ | off⟩
          · rw [init] at gap
            simp only
            have same' := ended.trans gap
            cases src with
            | null n => exact copyAll_block env same' traits l₂ false (by omega) (by omega)
            | bytes c => exact copyAll_block env same' traits l₂ true (by omega) (by omega)
          · rw [init] at gap inside
            have below := (mem_offsets (inside off rfl)).2
            exact (ended.trans gap).block (by omega)

/-- `mpt_buffer_insert` changes nothing when it fails. -/
theorem bufferInsert_failed (env : Env) (l : Ledger) (b : Buffer) (pos len : Nat)
    (failed : (bufferInsert env l b pos len).2.2 = none) :
    bufferInsert env l b pos len = (l, b, none) := by
  unfold bufferInsert at failed ⊢
  simp only at failed ⊢
  by_cases empty : (max pos b.used + len) % sizeLimit = 0
  · rw [if_pos empty] at failed
    cases failed
  rw [if_neg empty] at failed ⊢
  by_cases large : b.size < (max pos b.used + len) % sizeLimit
  · rw [if_pos large]
  rw [if_neg large] at failed ⊢
  by_cases immutable : b.flags.immutable = true
  · rw [if_pos immutable]
  rw [if_neg immutable] at failed ⊢
  rcases elements : b.traits with _ | traits
  · simp [elements] at failed
  · simp only [elements, decide_eq_true_eq] at failed ⊢
    by_cases misfit : traits.size = 0 ∨ b.used % traits.size ≠ 0 ∨ pos % traits.size ≠ 0 ∨
        len % traits.size ≠ 0
    · rw [if_pos misfit]
    · rw [if_neg misfit] at failed
      cases failed

end Setting

section Copy

/-! A copy to an empty buffer -/

variable (env : Env) (l : Ledger) {b : Buffer} {traits : Traits} {c : List Byte}

theorem copy_large (large : b.size < c.length) (types : Option Traits) :
    ∃ e, bufferSet env l b types 0 (.bytes c) = (l, b, .error e) := by
  unfold bufferSet
  simp only [Data.len, Nat.zero_add]
  by_cases limit : sizeLimit ≤ c.length
  · exact ⟨_, if_pos limit⟩
  · rw [if_neg limit]
    exact ⟨_, if_pos large⟩

theorem copy_partial (typed : b.traits = some traits) (part : c.length % traits.size ≠ 0) :
    ∃ e, bufferSet env l b (some traits) 0 (.bytes c) = (l, b, .error e) := by
  unfold bufferSet
  simp only [Data.len, Nat.zero_add, typed]
  by_cases limit : sizeLimit ≤ c.length
  · exact ⟨_, if_pos limit⟩
  rw [if_neg limit]
  by_cases large : b.size < c.length
  · exact ⟨_, if_pos large⟩
  rw [if_neg large]
  exact ⟨_, if_pos (.inr (.inr part))⟩

variable (empty : b.used = 0) (room : c.length ≤ b.size) (limit : c.length < sizeLimit)

include empty room limit

/-- Typed elements go to an empty buffer one by one, or all at once without an initializer. -/
theorem copy_typed (typed : b.traits = some traits) (some_ : traits.size ≠ 0)
    (whole : c.length % traits.size = 0) :
    bufferSet env l b (some traits) 0 (.bytes c) =
      if traits.init then
        match copyAll env l b traits.size true 0 (offsets 0 c.length traits.size) with
        | (l, b', count, some off) => (l, { b' with used := off }, .ok count)
        | (l, b', count, none) => (l, { b' with used := c.length }, .ok count)
      else
        (l, { b.put 0 c with used := c.length }, .ok (c.length / traits.size)) := by
  have before : ∀ off, offsets off 0 traits.size = [] :=
    fun off => offsets_none traits.size (Nat.zero_le off)
  unfold bufferSet
  simp only [Data.len, Nat.zero_add, typed]
  rw [if_neg (Nat.not_le.mpr limit), if_neg (Nat.not_lt.mpr room),
    if_neg (by simp [some_, whole]), if_neg (by simp)]
  simp only [empty, Nat.zero_sub, before, finalizeAll, ite_self, initAll, Nat.zero_max]
  rcases copyAll env l b traits.size true 0 (offsets 0 c.length traits.size) with
    ⟨l', b', count, _ | off⟩ <;> rfl

theorem copy_whole
    (whole : ∀ traits, b.traits = some traits → traits.size ≠ 0 ∧ c.length % traits.size = 0) :
    ∃ l' b' k, bufferSet env l b b.traits 0 (.bytes c) = (l', b', .ok k) ∧
      SameBlock b b' ∧
      ((∀ traits, b.traits = some traits → traits.init = false) → b'.content = c) := by
  have block := bufferSet_block env l (show b.used ≤ b.size by omega) b.traits 0 (.bytes c)
  have written : ∀ n, n = c.length → ({ b.put 0 c with used := n } : Buffer).content = c := by
    rintro n rfl
    exact Mem.read_write_self b.mem (b.base + 0) c
  rcases elements : b.traits with _ | traits
  · have set := bufferSet_raw env l elements
      (show 0 + (Data.bytes c).len ≤ b.size by simp only [Data.len]; omega)
      (by simp only [Data.len]; omega)
    rw [elements, set] at block
    exact ⟨_, _, _, set, block, fun _ => written _ (by simp only [Data.len]; omega)⟩
  · obtain ⟨some_, part⟩ := whole traits elements
    have set := copy_typed env l empty room limit elements some_ part
    rw [elements] at block
    rw [set] at block ⊢
    by_cases init : traits.init = true
    · rw [if_pos init] at block ⊢
      have none : ¬ ∀ t, some traits = some t → t.init = false := by
        intro never
        rw [never traits rfl] at init
        cases init
      rcases copy : copyAll env l b traits.size true 0 (offsets 0 c.length traits.size) with
        ⟨l', b', count, _ | off⟩
      · rw [copy] at block
        exact ⟨_, _, _, rfl, block, fun never => absurd never none⟩
      · rw [copy] at block
        exact ⟨_, _, _, rfl, block, fun never => absurd never none⟩
    · rw [if_neg init] at block ⊢
      exact ⟨_, _, _, rfl, block, fun _ => written _ rfl⟩

end Copy

/-- Memory for every request, and no initializer succeeds. -/
def refusing : Env := { granting with initOk := fun _ => false }

/-- Where no initializer succeeds nothing is copied. -/
theorem copy_refusing {l : Ledger} {b : Buffer} {traits : Traits} {c : List Byte}
    (empty : b.used = 0) (room : c.length ≤ b.size) (limit : c.length < sizeLimit)
    (typed : b.traits = some traits) (some_ : traits.size ≠ 0)
    (whole : c.length % traits.size = 0) (init : traits.init = true) (data : c.length ≠ 0) :
    (bufferSet refusing l b (some traits) 0 (.bytes c)).2.1.used = 0 := by
  rw [copy_typed _ _ empty room limit typed some_ whole, if_pos init]
  have first : ∃ rest, offsets 0 c.length traits.size = 0 :: rest := by
    unfold offsets
    have positive : 0 < (c.length - 0 + (traits.size - 1)) / traits.size :=
      Nat.div_pos (by omega) (by omega)
    obtain ⟨n, count⟩ := Nat.exists_eq_succ_of_ne_zero (Nat.ne_of_gt positive)
    rw [count, List.range_succ_eq_map, List.map_cons, Nat.zero_mul]
    exact ⟨_, rfl⟩
  obtain ⟨rest, offs⟩ := first
  rw [offs]
  rfl

end Mpt.Heap
