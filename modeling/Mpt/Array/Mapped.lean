import Mpt.Array.Array
import Mpt.Run
import Mathlib.Data.List.Nodup

/-! # Buffers in mapped memory

The second kind of buffer asks `mmap` for whole pages.  The size of a page is kept
in a static variable, that nothing sets before its first use; what `sysconf` and
`mmap` answer is a parameter.
-/

namespace Mpt.Heap.Mapped

/-- The answers of the environment. -/
structure MapEnv where
  /-- `sysconf(_SC_PAGESIZE)` -/
  pagesize : Int
  /-- the address that `mmap` returns to its `n`-th call -/
  mmap : (n len : Nat) → Nat

/-- `MAP_FAILED` -/
def mapFailed : Nat := sizeLimit - 1

/-- The buffers of a process and its `_mpt_buffer_map_psize`. -/
structure MapWorld where
  world : World
  /-- number of `mmap` calls -/
  mmaps : Nat
  psize : Int

/-- The size of a page: `sysconf` is not asked before it is known. -/
def pageSize (env : MapEnv) (w : MapWorld) : MapWorld × Option Int :=
  if w.psize = 0 then
    (w, none)
  else
    let w := { w with psize := env.pagesize }
    if env.pagesize < 1 then (w, none) else (w, some env.pagesize)

/-- One call of `mmap`. -/
def mapPages (env : MapEnv) (w : MapWorld) (len : Nat) : MapWorld × Nat :=
  ({ w with mmaps := w.mmaps + 1 }, env.mmap w.mmaps len)

/-- The address of a mapping, null where it failed. -/
def mapped (base : Nat) : Option Nat :=
  if base = mapFailed ∨ base = 0 then none else some base

/-- `_mpt_memmap`: where the first page is given out, it is made unusable and another
    mapping taken. -/
def memmap (env : MapEnv) (w : MapWorld) (len : Nat) : MapWorld × Option Nat :=
  match mapPages env w len with
  | (w, 0) =>
      match pageSize env w with
      | (w, none) => (w, none)
      | (w, some _) =>
          match mapPages env w len with
          | (w, base) => (w, mapped base)
  | (w, base) => (w, mapped base)

/-- The bytes of whole pages for header and content. -/
def mapSize (psize len : Nat) : Nat :=
  let len := len + 64
  if len % psize = 0 then len else len + (psize - len % psize)

/-- `_mpt_buffer_map` -/
def bufferMap (env : MapEnv) (w : MapWorld) (len : Nat) (flags : Flags) : MapWorld × Option Nat :=
  match pageSize env w with
  | (w, none) => (w, none)
  | (w, some psize) =>
      if sizeLimit - 1 - 64 - psize.toNat < len then
        (w, none)
      else
        let len := mapSize psize.toNat len
        match memmap env w len with
        | (w, none) => (w, none)
        | (w, some base) =>
            let b : Buffer := ⟨base + 64, len - 64, 0, 1, flags, none, fun _ => 0, fun _ => none⟩
            let n := w.world.mallocs
            ({ w with world := { w.world.store n b with mallocs := n + 1 } }, some n)

/-- `_mpt_buffer_map_unref` -/
def mapUnref (w : World) (p : Nat) : World :=
  match w.cells p with
  | none => w.crash
  | some b =>
      match refcountLower b.refs with
      | (refs, false) => w.store p { b with refs := refs }
      | (_, true) =>
          let (l, _) := match b.traits with
            | some traits =>
                if traits.fini.isSome ∧ traits.size ≠ 0 then
                  -- all the room, not only what is used
                  finalizeAll w.ledger b (offsets 0 (b.size - b.size % traits.size) traits.size)
                else
                  (w.ledger, b)
            | none => (w.ledger, b)
          { w with ledger := l }.free p

/-- The leading bytes of an old buffer in a new one. -/
def leading (next b : Buffer) (len : Nat) : Buffer :=
  let old := min b.used len
  if old = 0 then
    next
  else
    { next with used := old, mem := next.mem.write next.base (b.mem.read b.base old) }

/-- `_mpt_buffer_map_detach` -/
def mapDetach (env : MapEnv) (w : MapWorld) (p len : Nat) : MapWorld × Option Nat :=
  match w.world.cells p with
  | none => ({ w with world := w.world.crash }, none)
  | some b =>
      if b.refs = 1 ∧ b.flags.immutable = false then
        (w, some p)
      else if b.traits.isSome then
        -- only detach raw buffer
        (w, none)
      else
        match bufferMap env w len { b.flags with immutable := false } with
        | (w, none) => (w, none)
        | (w, some n) =>
            match w.world.cells n with
            | none => ({ w with world := w.world.crash }, none)
            | some next =>
                ({ w with world := mapUnref (w.world.store n (leading next b len)) p }, some n)

/-- The calls on mapped buffers; `_mpt_buffer_map_ref` is the same as for the heap. -/
inductive MapCall where
  | memmap (len : Nat)
  | map (len : Nat) (flags : Flags)
  | detach (p len : Nat)
  | ref (p : Nat)
  | unref (p : Nat)

def mapMachine (env : MapEnv) : Machine MapWorld MapCall (Option Nat) where
  step w
    | .memmap len => memmap env w len
    | .map len flags => bufferMap env w len flags
    | .detach p len => mapDetach env w p len
    | .ref p =>
        match bufferRef w.world p with
        | (world, ret) => ({ w with world := world }, some ret)
    | .unref p => ({ w with world := mapUnref w.world p }, none)

/-- A buffer as its creators hand it out. -/
structure Alive (w : World) (p : Nat) (b : Buffer) : Prop where
  cell : w.cells p = some b
  made : p < w.mallocs
  refs : 1 ≤ b.refs
  used : b.used ≤ b.size

/-- An empty buffer with room for `len` bytes. -/
def Provides (w : World) (ret : Option Nat) (len : Nat) : Prop :=
  ∃ n b, ret = some n ∧ w.cells n = some b ∧ b.used = 0 ∧ len ≤ b.size

/-- What is left of a buffer when a holder is gone. -/
def released (b : Buffer) : Option Buffer :=
  if b.refs = 1 then none else some { b with refs := b.refs - 1 }

/-- What users of `detach` rely on. -/
structure Detached (w : World) (p : Nat) (b : Buffer) (len : Nat) (ret : Option Nat) : Prop where
  /-- nothing is changed without an answer -/
  kept : ret = none → w.cells p = some b
  /-- the answer is private, writable and big enough, with the same start -/
  own : ∀ n, ret = some n → ∃ next, w.cells n = some next ∧ next.refs = 1 ∧
    next.flags.immutable = false ∧ len ≤ next.size ∧ next.content <+: b.content ∧
    b.content.take len <+: next.content
  /-- a new buffer takes the place of one reference -/
  gone : ∀ n, ret = some n → n ≠ p → w.cells p = released b

/-- The elements in use. -/
def live (b : Buffer) : List (Option Nat) :=
  match b.traits with
  | none => []
  | some traits =>
      if traits.fini.isSome ∧ traits.size ≠ 0 then
        (offsets 0 (b.used - b.used % traits.size) traits.size).map b.elem
      else
        []

/-- The last holder finalizes what is in use, the others nothing. -/
def Finalized (w w' : World) (b : Buffer) : Prop :=
  w'.ledger.finis = w.ledger.finis ++ if b.refs = 1 then live b else []

/-- The room ends where the elements end. -/
def Filled (b : Buffer) : Prop :=
  ∀ traits, b.traits = some traits → traits.fini.isSome → traits.size ≠ 0 →
    b.size / traits.size = b.used / traits.size

section Pages

variable {env : MapEnv} {w : MapWorld}

theorem pageSize_world (env : MapEnv) (w : MapWorld) : (pageSize env w).1.world = w.world := by
  unfold pageSize
  grind

/-- As long as the size of a page is not known nothing finds it out. -/
theorem pageSize_unknown (unknown : w.psize = 0) : pageSize env w = (w, none) := by
  unfold pageSize
  rw [if_pos unknown]

theorem memmap_world (env : MapEnv) (w : MapWorld) (len : Nat) : (memmap env w len).1.world = w.world := by
  unfold memmap mapPages
  split
  · rename_i w₁ first
    obtain ⟨rfl, _⟩ := Prod.mk.inj first
    have same := pageSize_world env { w with mmaps := w.mmaps + 1 }
    split
    · rename_i w₂ size
      rw [size] at same
      exact same
    · rename_i w₂ _ size
      rw [size] at same
      exact same
  · rename_i w₁ _ _ first
    obtain ⟨rfl, _⟩ := Prod.mk.inj first
    rfl

theorem memmap_unknown (unknown : w.psize = 0) (len : Nat) : (memmap env w len).1.psize = 0 := by
  unfold memmap mapPages
  split
  · rename_i w₁ first
    obtain ⟨rfl, _⟩ := Prod.mk.inj first
    rw [pageSize_unknown (w := ⟨w.world, w.mmaps + 1, w.psize⟩) unknown]
    exact unknown
  · rename_i w₁ _ _ first
    obtain ⟨rfl, _⟩ := Prod.mk.inj first
    exact unknown

theorem bufferMap_unknown (unknown : w.psize = 0) (len : Nat) (flags : Flags) :
    bufferMap env w len flags = (w, none) := by
  unfold bufferMap
  rw [pageSize_unknown unknown]

theorem mapDetach_unknown (unknown : w.psize = 0) (p len : Nat) :
    (mapDetach env w p len).1.psize = 0 := by
  unfold mapDetach
  split
  · exact unknown
  · rename_i b _
    split
    · exact unknown
    · split
      · exact unknown
      · rw [bufferMap_unknown unknown]
        exact unknown

/-- Whole pages hold what is asked for. -/
theorem le_mapSize (psize len : Nat) : len + 64 ≤ mapSize psize len := by
  unfold mapSize
  grind

/-- What `_mpt_buffer_map` does. -/
inductive Mapping (w : MapWorld) (len : Nat) (flags : Flags) : MapWorld × Option Nat → Prop where
  | refused {w' : MapWorld} (world : w'.world = w.world) : Mapping w len flags (w', none)
  | made {w' : MapWorld} {b : Buffer}
      (world : w'.world = { w.world.store w.world.mallocs b with mallocs := w.world.mallocs + 1 })
      (used : b.used = 0) (refs : b.refs = 1) (same : b.flags = flags) (room : len ≤ b.size) :
      Mapping w len flags (w', some w.world.mallocs)

theorem bufferMap_cases (env : MapEnv) (w : MapWorld) (len : Nat) (flags : Flags) :
    Mapping w len flags (bufferMap env w len flags) := by
  have size := pageSize_world env w
  unfold bufferMap
  split
  · rename_i w₁ page
    rw [page] at size
    exact .refused size
  · rename_i w₁ psize page
    rw [page] at size
    split
    · exact .refused size
    · have same := memmap_world env w₁ (mapSize psize.toNat len)
      have room := le_mapSize psize.toNat len
      simp only
      split
      · rename_i w₂ pages
        rw [pages, size] at same
        exact .refused same
      · rename_i w₂ base pages
        rw [pages, size] at same
        simp only at same
        rw [same]
        exact .made rfl rfl rfl rfl (by simp only; omega)

end Pages

section Elements

theorem finalizeAll_finis (offs : List Nat) (distinct : offs.Nodup) (l : Ledger) (b : Buffer) :
    (finalizeAll l b offs).1.finis = l.finis ++ offs.map b.elem := by
  induction offs generalizing l b with
  | nil => simp [finalizeAll]
  | cons off offs ih =>
      rw [List.nodup_cons] at distinct
      have others : offs.map (b.elem.set off none) = offs.map b.elem := by
        apply List.map_congr_left
        intro q hq
        have ne : q ≠ off := fun same => distinct.1 (same ▸ hq)
        exact Mem.set_ne b.elem none ne
      simp only [finalizeAll, finalize, ih distinct.2, others, List.map_cons, List.append_assoc,
        List.singleton_append]

theorem offsets_nodup (pos stop : Nat) {size : Nat} (some : size ≠ 0) :
    (offsets pos stop size).Nodup := by
  unfold offsets
  refine List.Nodup.map_on ?_ List.nodup_range
  intro i _ j _ same
  have scaled : i * size = j * size := Nat.add_left_cancel same
  exact Nat.eq_of_mul_eq_mul_right (by omega) scaled

/-- The elements of `n` bytes. -/
theorem length_offsets (n : Nat) {size : Nat} (some : size ≠ 0) :
    (offsets 0 (n - n % size) size).length = n / size := by
  have whole : n - n % size = size * (n / size) := by
    have parts := Nat.div_add_mod n size
    omega
  unfold offsets
  rw [List.length_map, List.length_range, whole, Nat.sub_zero, Nat.mul_add_div (by omega),
    Nat.div_eq_of_lt (by omega : size - 1 < size), Nat.add_zero]

theorem offsets_congr {m n size : Nat} (same : m / size = n / size) :
    offsets 0 (m - m % size) size = offsets 0 (n - n % size) size := by
  have left := Nat.div_add_mod m size
  have right := Nat.div_add_mod n size
  have whole : m - m % size = n - n % size := by
    rw [same] at left
    omega
  rw [whole]

end Elements

section Holders

variable {env : MapEnv} {w : MapWorld} {p : Nat} {b : Buffer}

/-- The finalizers run over the whole room. -/
theorem mapUnref_finis (alive : Alive w.world p b) :
    (mapUnref w.world p).ledger.finis = w.world.ledger.finis ++
      if b.refs = 1 then live { b with used := b.size } else [] := by
  unfold mapUnref
  rw [alive.cell]
  by_cases last : b.refs = 1
  · simp only [refcountLower, last, if_pos]
    rw [if_neg (by omega)]
    cases content : b.traits with
    | none => simp [live, World.free]
    | some traits =>
        by_cases elements : traits.fini.isSome ∧ traits.size ≠ 0
        · have distinct := offsets_nodup 0 (b.size - b.size % traits.size) elements.2
          have done := finalizeAll_finis _ distinct w.world.ledger b
          simp only [Nat.sub_self, decide_true, if_pos elements, live, World.free, done]
        · simp only [Nat.sub_self, decide_true, if_neg elements, live, World.free,
            List.append_nil]
  · have more : b.refs - 1 ≠ 0 := by
      have refs := alive.refs
      omega
    rw [if_neg last]
    simp only [refcountLower, if_neg (Nat.ne_of_gt alive.refs), more, decide_false, World.store,
      List.append_nil]

/-- Finalizing the room is right where it ends with the elements. -/
theorem mapUnref_meets (alive : Alive w.world p b) :
    Finalized w.world (mapUnref w.world p) b ↔ (b.refs = 1 → Filled b) := by
  unfold Finalized
  rw [mapUnref_finis alive, List.append_cancel_left_eq]
  by_cases last : b.refs = 1
  · simp only [last, true_implies]
    unfold live Filled
    cases content : b.traits with
    | none => simp
    | some traits =>
        by_cases elements : traits.fini.isSome ∧ traits.size ≠ 0
        · simp only [if_pos elements]
          constructor
          · intro same traits' found _ _
            obtain rfl := Option.some.inj found
            have count := congrArg List.length same
            simpa only [if_true, List.length_map, length_offsets _ elements.2] using count
          · intro filled
            rw [offsets_congr (filled traits rfl elements.1 elements.2)]
        · simp only [if_neg elements, true_iff]
          intro traits' found hasFini sized
          obtain rfl := Option.some.inj found
          exact absurd ⟨hasFini, sized⟩ elements
  · simp [last]

theorem mapUnref_self (alive : Alive w.world p b) : (mapUnref w.world p).cells p = released b := by
  have refs := alive.refs
  unfold mapUnref released
  rw [alive.cell]
  by_cases last : b.refs = 1
  · simp [refcountLower, last]
  · have more : b.refs - 1 ≠ 0 := by omega
    simp [refcountLower, Nat.ne_of_gt refs, more, last]

theorem mapUnref_other {q : Nat} (other : q ≠ p) (world : World) :
    (mapUnref world p).cells q = world.cells q := by
  unfold mapUnref
  split
  · rfl
  · split
    · simp [World.store, other]
    · simp [World.free, other]

/-- The old content is in the new buffer as far as it fits. -/
theorem leading_content (next : Buffer) (len : Nat) (empty : next.used = 0) :
    (leading next b len).content = b.content.take len := by
  unfold leading Buffer.content
  rw [Mem.take_read, Nat.min_comm len]
  by_cases nothing : min b.used len = 0
  · simp only [nothing, if_pos, empty, Mem.read_zero]
  · simp only [if_neg nothing]
    have size : (b.mem.read b.base (min b.used len)).length = min b.used len := Mem.length_read ..
    have back := Mem.read_write_self next.mem next.base (b.mem.read b.base (min b.used len))
    rwa [size] at back

theorem leading_fields (next : Buffer) (len : Nat) :
    (leading next b len).refs = next.refs ∧ (leading next b len).flags = next.flags ∧
      (leading next b len).size = next.size := by
  unfold leading
  grind

/-- Detaching fails its users for a buffer of their own that is too small, and only
    there. -/
theorem mapDetach_meets (alive : Alive w.world p b) (len : Nat) :
    Detached (mapDetach env w p len).1.world p b len (mapDetach env w p len).2 ↔
      ¬ (b.refs = 1 ∧ b.flags.immutable = false ∧ b.size < len) := by
  unfold mapDetach
  simp only [alive.cell]
  by_cases own : b.refs = 1 ∧ b.flags.immutable = false
  · rw [if_pos own]
    constructor
    · rintro ⟨_, same, _⟩ ⟨_, _, small⟩
      obtain ⟨next, cell, _, _, room, _⟩ := same p rfl
      have found : next = b := Option.some.inj (cell.symm.trans alive.cell)
      subst found
      omega
    · intro big
      refine ⟨fun null => (Option.some_ne_none p null).elim, ?_, ?_⟩
      · intro n ret
        obtain rfl := Option.some.inj ret
        have room : len ≤ b.size := by grind
        exact ⟨b, alive.cell, own.1, own.2, room, List.prefix_refl _, List.take_prefix _ _⟩
      · intro n ret other
        exact absurd (Option.some.inj ret).symm other
  · rw [if_neg own]
    have fine : ¬ (b.refs = 1 ∧ b.flags.immutable = false ∧ b.size < len) :=
      fun bad => own ⟨bad.1, bad.2.1⟩
    simp only [fine, not_false_iff, iff_true]
    have unchanged : ∀ world : World, world.cells p = some b → Detached world p b len none :=
      fun _ cell => ⟨fun _ => cell, nofun, nofun⟩
    by_cases typed : b.traits.isSome
    · rw [if_pos typed]
      exact unchanged w.world alive.cell
    · rw [if_neg typed]
      have cases := bufferMap_cases env w len { b.flags with immutable := false }
      rcases mapping : bufferMap env w len { b.flags with immutable := false } with ⟨w₁, ret⟩
      rw [mapping] at cases
      cases cases with
      | refused world =>
          refine unchanged w₁.world ?_
          rw [world]
          exact alive.cell
      | made world used refs same room =>
          rename_i next
          have other : p ≠ w.world.mallocs := Nat.ne_of_lt alive.made
          have new : w₁.world.cells w.world.mallocs = some next := by
            rw [world]
            simp [World.store]
          simp only [new]
          have alive₁ : Alive (w₁.world.store w.world.mallocs (leading next b len)) p b := by
            refine ⟨?_, ?_, alive.refs, alive.used⟩
            · rw [world]
              simp only [World.store, if_neg other]
              exact alive.cell
            · rw [world]
              have made := alive.made
              simp only [World.store]
              omega
          have gone := mapUnref_self (w := ⟨_, w₁.mmaps, w₁.psize⟩) alive₁
          obtain ⟨refs', flags', size'⟩ := leading_fields (b := b) next len
          have content := leading_content (b := b) next len used
          refine ⟨fun null => (Option.some_ne_none _ null).elim, ?_, fun _ _ _ => gone⟩
          intro n ret
          obtain rfl := Option.some.inj ret
          refine ⟨leading next b len, ?_, refs'.trans refs, ?_, ?_, ?_, ?_⟩
          · rw [mapUnref_other (Ne.symm other), World.store_self]
          · rw [flags', same]
          · rw [size']
            exact room
          · rw [content]
            exact List.take_prefix _ _
          · simp only [content, List.prefix_refl]

end Holders

/-- No call finds out the size of a page. -/
theorem mapMachine_unknown (env : MapEnv) (world : World) (mmaps : Nat) (calls : List MapCall) :
    ((mapMachine env).after ⟨world, mmaps, 0⟩ calls).psize = 0 := by
  refine (mapMachine env).invariant_always (P := fun w => w.psize = 0) ?_ rfl calls
  intro w call unknown
  cases call with
  | memmap len => exact memmap_unknown unknown len
  | map len flags =>
      simp only [mapMachine, bufferMap_unknown unknown]
      exact unknown
  | detach p len => exact mapDetach_unknown unknown p len
  | ref p => exact unknown
  | unref p => exact unknown

/-- In no process is there a mapped buffer: whatever was called before, none is made.
    Of a buffer that would exist, detaching is right but for one that is its holder's
    own and too small, and giving up the last reference is right where the room ends
    with the elements. -/
theorem mapped_buffers_when (env : MapEnv) (world : World) (calls : List MapCall) :
    let w := (mapMachine env).after ⟨world, 0, 0⟩ calls
    (∀ len flags, ¬ Provides (bufferMap env w len flags).1.world (bufferMap env w len flags).2 len) ∧
      (∀ p b len, Alive w.world p b →
        (Detached (mapDetach env w p len).1.world p b len (mapDetach env w p len).2 ↔
          ¬ (b.refs = 1 ∧ b.flags.immutable = false ∧ b.size < len))) ∧
      (∀ p b, Alive w.world p b →
        (Finalized w.world (mapUnref w.world p) b ↔ (b.refs = 1 → Filled b))) := by
  intro w
  refine ⟨?_, fun p b len alive => mapDetach_meets alive len, fun p b alive => mapUnref_meets alive⟩
  rintro len flags ⟨n, b, ret, _⟩
  rw [bufferMap_unknown (mapMachine_unknown env world 0 calls)] at ret
  cases ret

/-- Pages of 4096 bytes, mapped one behind another. -/
def mapExample : MapEnv := ⟨4096, fun n _ => 4096 * (n + 1)⟩

/-- One shared buffer of 16 bytes, with three in use. -/
def sharedExample : World :=
  { World.empty with
    cells := fun q => if q = 0 then
        some ⟨64, 16, 3, 2, ⟨false, false⟩, none, fun _ => 7, fun _ => none⟩ else none
    mallocs := 1 }

theorem mapped_buffers_shared :
    Detached (mapDetach mapExample ⟨sharedExample, 0, 0⟩ 0 10).1.world 0
      ⟨64, 16, 3, 2, ⟨false, false⟩, none, fun _ => 7, fun _ => none⟩ 10
      (mapDetach mapExample ⟨sharedExample, 0, 0⟩ 0 10).2 :=
  ((mapped_buffers_when mapExample sharedExample []).2.1 0 _ 10
    ⟨rfl, by decide, by decide, by decide⟩).mpr (by decide)

/-- Ten bytes are not mapped although the system provides pages. -/
theorem no_buffer_mapped :
    ¬ ∀ (env : MapEnv) (len : Nat) (flags : Flags), 1 ≤ env.pagesize →
      (∀ n size, env.mmap n size ≠ mapFailed ∧ env.mmap n size ≠ 0) →
      len + 64 + env.pagesize.toNat < sizeLimit →
      Provides (bufferMap env ⟨World.empty, 0, 0⟩ len flags).1.world
        (bufferMap env ⟨World.empty, 0, 0⟩ len flags).2 len := by
  intro claim
  have given : ∀ n size, mapExample.mmap n size ≠ mapFailed ∧ mapExample.mmap n size ≠ 0 := by
    intro n size
    simp only [mapExample, mapFailed, sizeLimit]
    omega
  obtain ⟨n, b, ret, _⟩ := claim mapExample 10 ⟨false, false⟩ (by decide) given (by decide)
  cases ret

end Mpt.Heap.Mapped
