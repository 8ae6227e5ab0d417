import Mpt.Array.Elements

/-! # All or nothing

`_mpt_buffer_alloc_detach` lowers the reference count before the content is copied.  A
copy that fails gives the reference up for nothing, a copy whose initializers fail ends
early, and a block that is too small takes more than it has.  Without these it provides a
private buffer or changes nothing.
-/

namespace Mpt.Heap

/-- One reference less to the buffer `b` at `p`. -/
def Released (w : World) (p : Nat) (b : Buffer) : Prop :=
  if b.refs < 2 then w.cells p = none else w.cells p = some { b with refs := b.refs - 1 }

/-- The buffer `b'` at `q` that replaces the buffer `b` at `p`. -/
structure Obtained (w : World) (p q : Nat) (b b' : Buffer) (len : Nat) : Prop where
  cell : w.cells q = some b'
  single : b'.refs = 1
  writable : b'.flags.immutable = false
  room : len ≤ b'.size
  used : b'.used ≤ b'.size
  content : b'.content.take (min b.used (detachSize b.traits len)) =
    b.content.take (min b.used (detachSize b.traits len))
  released : if q = p then b' = b else Released w p b

/-- Content, used size and reference count of the buffer `b` at `p` are as they were. -/
def Unchanged (w : World) (p : Nat) (b : Buffer) : Prop :=
  ∃ b', w.cells p = some b' ∧ b'.content = b.content ∧ b'.used = b.used ∧ b'.refs = b.refs

/-- A private buffer for `len` bytes, or nothing; no storage is used that does not exist. -/
structure AllOrNothing (r : World × Option Nat) (p : Nat) (b : Buffer) (len : Nat) : Prop where
  sound : r.1.fault = false
  all : ∀ q, r.2 = some q → ∃ b', Obtained r.1 p q b b' len
  nothing : r.2 = none → Unchanged r.1 p b

/-- After a failure an array that had the buffer `b` at `p` has a buffer that counts this
    reference. -/
def Usable (r : World × Array × Option Nat) (p : Nat) (b : Buffer) : Prop :=
  r.2.2 = none → ∃ q b', r.2.1 = some q ∧ r.1.cells q = some b' ∧ b'.used ≤ b'.size ∧
    b'.refs = if q = p then b.refs else 1

/-- The operations on the array that need a private buffer for `len` bytes leave it usable. -/
structure Keeps (env : Env) (w : World) (p : Nat) (b : Buffer) (len : Nat) : Prop where
  set : ∀ traits src off,
    (∀ t, traits = some t → (setPos t b.used off).toNat + src.len = len) →
      Usable (arraySet env w (some p) traits src off) p b
  slice : ∀ off n, max b.used (off + n) = len → Usable (arraySlice env w (some p) off n) p b
  insert : ∀ pos n, (max pos b.used + n) % sizeLimit = len →
    Usable (arrayInsert env w (some p) pos n) p b

/-- The buffer can be used as it is. -/
def Buffer.kept (b : Buffer) (len : Nat) : Prop :=
  b.refs < 2 ∧ detachSize b.traits len ≤ b.size ∧ b.flags.immutable = false

instance (b : Buffer) (len : Nat) : Decidable (b.kept len) :=
  inferInstanceAs (Decidable (b.refs < 2 ∧ detachSize b.traits len ≤ b.size ∧
    b.flags.immutable = false))

/-- The bytes that go to a new buffer: what is behind the length is left out only where the
    last holder moves it, and only raw content or content with a finalizer. -/
def Buffer.taken (b : Buffer) (len : Nat) : Nat :=
  if b.refs < 2 ∧ len < b.used ∧ b.traits.all (fun traits => traits.fini.isSome) then len
  else b.used

/-- The condition: a buffer that is kept has the length, and a new block the header and the
    length and the bytes that it takes, with the arithmetic of `size_t`; a copy is of whole
    elements, and no initializer is needed for it. -/
def Detachable (b : Buffer) (len : Nat) : Prop :=
  (b.traits.any fun traits => decide (traits.size = 0)) = true ∨ b.pinned ∨
    if b.kept len then len ≤ b.size
    else
      len + 64 ≤ blockSize (detachSize b.traits len) ∧
      b.taken (detachSize b.traits len) + 64 ≤ blockSize (detachSize b.traits len) ∧
      (2 ≤ b.refs → ∀ traits, b.traits = some traits → b.used % traits.size = 0 ∧
        (traits.init = true → min b.used (detachSize b.traits len) = 0))

/-- A buffer `b` at `p` that somebody holds. -/
structure Held (w : World) (p : Nat) (b : Buffer) : Prop where
  cell : w.cells p = some b
  made : p < w.mallocs
  sound : w.fault = false
  refs : 0 < b.refs
  used : b.used ≤ b.size

section Renew

variable {env : Env} {w w₁ : World} {p len : Nat} {b next : Buffer}

/-- The last holder takes what `shrink` leaves. -/
theorem shrink_taken (l : Ledger) (one : b.refs < 2) (len : Nat) :
    (shrink l b len).2 = b.taken len := by
  unfold shrink Buffer.taken
  by_cases behind : len < b.used
  · rw [if_pos behind]
    rcases elements : b.traits with _ | traits
    · rw [if_pos ⟨one, behind, rfl⟩]
    · by_cases fini : traits.fini.isSome = true
      · simp [one, behind, fini]
      · simp [fini]
  · rw [if_neg behind, if_neg (fun h => behind h.2.1)]

theorem le_taken (b : Buffer) (len : Nat) : min b.used len ≤ b.taken len := by
  unfold Buffer.taken
  split <;> omega

variable (h : Held w p b)
  (sized : (b.traits.any fun traits => decide (traits.size = 0)) = false)
  (renew : ¬ b.kept len) (free : ¬ b.pinned)
  (alloc : bufferAlloc env w (detachSize b.traits len) { b.flags with immutable := false } =
    (w₁, some w.mallocs))
  (block : Provided w w₁ (detachSize b.traits len)
    { b.flags with immutable := false } next)

include h sized renew free alloc block

/-- The only holder gets all or nothing exactly where the block has room. -/
theorem moved_iff (one : b.refs < 2) :
    AllOrNothing (bufferDetach env w p len) p b len ↔
      len + 64 ≤ blockSize (detachSize b.traits len) ∧
        b.taken (detachSize b.traits len) + 64 ≤ blockSize (detachSize b.traits len) := by
  have refs := h.refs
  have other : w.mallocs ≠ p := Nat.ne_of_gt h.made
  have made : w₁.cells w.mallocs = some next := by rw [block.cells, World.store_self]
  have lower : refcountLower b.refs = (0, true) := by
    rw [show b.refs = 1 by omega]
    rfl
  have size := block.size
  have fault := block.fault
  rw [h.sound, Bool.false_or] at fault
  have moved := detach_moved h.cell sized renew free alloc made lower
  have add := shrink_taken w₁.ledger one (detachSize b.traits len)
  rcases shrunk : shrink w₁.ledger b (detachSize b.traits len) with ⟨l, n⟩
  rw [shrunk] at add moved
  simp only at add moved
  subst add
  rw [moved]
  have cell : ((({ w₁ with ledger := l }.store w.mallocs (moveContent
      { next with traits := b.traits } b (b.taken (detachSize b.traits len)))).free p).cells
        w.mallocs) = some (moveContent { next with traits := b.traits } b
          (b.taken (detachSize b.traits len))) := by
    rw [World.free_ne _ other, World.store_self]
  constructor
  · intro result
    have sound := result.sound
    by_cases small : next.size < b.taken (detachSize b.traits len)
    · rw [if_pos small] at sound
      cases sound
    rw [if_neg small] at sound result
    have header : ¬ blockSize (detachSize b.traits len) < 64 :=
      of_decide_eq_false (fault.symm.trans sound)
    obtain ⟨b', got⟩ := result.all _ rfl
    have same := got.cell
    rw [cell] at same
    have room := got.room
    rw [← Option.some.inj same] at room
    simp only [moveContent] at room
    omega
  · rintro ⟨room, enough⟩
    rw [if_neg (by omega)]
    refine ⟨fault.trans (decide_eq_false (by omega)), ?_, fun none => by cases none⟩
    intro q eq
    rw [← Option.some.inj eq]
    refine ⟨_, cell, block.refs, by simp only [moveContent, block.flags], ?_, ?_, ?_, ?_⟩
    · simp only [moveContent]
      omega
    · simp only [moveContent]
      omega
    · have left := le_taken b (detachSize b.traits len)
      have read := Mem.read_write_self next.mem next.base
        (b.mem.read b.base (b.taken (detachSize b.traits len)))
      rw [Mem.length_read] at read
      simp only [Buffer.content, moveContent]
      rw [read, Mem.take_read, Mem.take_read]
      congr 1
      omega
    · rw [if_neg other]
      unfold Released
      rw [if_pos one, World.free_self]

variable (many : 2 ≤ b.refs)

include many

theorem copied_eq :
    bufferDetach env w p len =
      match bufferSet env w₁.ledger { next with traits := b.traits } b.traits 0
          (.bytes b.content) with
      | (l, next, .error _) =>
          (bufferUnref ({ w₁.store p { b with refs := b.refs - 1 } with
            ledger := l }.store w.mallocs next) w.mallocs, none)
      | (l, next, .ok _) => ({ w₁.store p { b with refs := b.refs - 1 } with
          ledger := l }.store w.mallocs next, some w.mallocs) := by
  have made : w₁.cells w.mallocs = some next := by rw [block.cells, World.store_self]
  have lower : refcountLower b.refs = (b.refs - 1, false) := by
    unfold refcountLower
    rw [if_neg (by omega), decide_eq_false (by omega)]
  exact detach_copied h.cell sized renew free alloc made lower

/-- A copy that fails has released the reference already. -/
theorem copied_failed {l : Ledger} {b' : Buffer} {e : Error}
    (failed : bufferSet env w₁.ledger { next with traits := b.traits } b.traits 0
      (.bytes b.content) = (l, b', .error e)) :
    ¬ AllOrNothing (bufferDetach env w p len) p b len := by
  have other : p ≠ w.mallocs := Nat.ne_of_lt h.made
  have kept := bufferSet_block env w₁.ledger (b := { next with traits := b.traits })
    (by simp only [block.used]; exact Nat.zero_le _) b.traits 0 (.bytes b.content)
  rw [failed] at kept
  have single : b'.refs = 1 := kept.refs.trans block.refs
  have eq := copied_eq h sized renew free alloc block many
  rw [failed] at eq
  simp only at eq
  have cell : (bufferDetach env w p len).1.cells p = some { b with refs := b.refs - 1 } := by
    rw [eq]
    unfold bufferUnref
    simp only [World.store_self, single]
    rw [show refcountLower 1 = (0, true) from rfl]
    simp only
    rw [World.free_ne _ other]
    simp [World.store, other]
  intro result
  obtain ⟨b'', same, _, _, refs⟩ := result.nothing (by rw [eq])
  rw [cell] at same
  rw [← Option.some.inj same] at refs
  simp only at refs
  omega

/-- A copy of whole elements that has room and needs no initializer provides the buffer. -/
theorem copied_all (room : len + 64 ≤ blockSize (detachSize b.traits len))
    (enough : b.used + 64 ≤ blockSize (detachSize b.traits len))
    (whole : ∀ traits, b.traits = some traits → b.used % traits.size = 0 ∧
      (traits.init = true → min b.used (detachSize b.traits len) = 0)) :
    AllOrNothing (bufferDetach env w p len) p b len ∧ (bufferDetach env w p len).2 ≠ none := by
  have other : p ≠ w.mallocs := Nat.ne_of_lt h.made
  have size := block.size
  have limit : blockSize (detachSize b.traits len) < sizeLimit := Nat.mod_lt _ (by decide)
  obtain ⟨l, b', k, set, kept, content⟩ := copy_whole env w₁.ledger
    (b := { next with traits := b.traits }) (c := b.content) block.used
    (by simp only [length_bufferContent]; omega) (by simp only [length_bufferContent]; omega)
    (by
      intro traits typed
      rw [length_bufferContent]
      refine ⟨?_, (whole traits typed).1⟩
      intro zero
      have typed : b.traits = some traits := typed
      simp [typed, zero] at sized)
  have set : bufferSet env w₁.ledger { next with traits := b.traits } b.traits 0
    (.bytes b.content) = (l, b', .ok k) := set
  rw [copied_eq h sized renew free alloc block many, set]
  refine ⟨⟨?_, ?_, nofun⟩, nofun⟩
  · exact block.fault.trans (by rw [h.sound, decide_eq_false (by omega)]; rfl)
  · intro q eq
    rw [← Option.some.inj eq]
    refine ⟨b', World.store_self _ _ _, kept.refs.trans block.refs, ?_, ?_, kept.used, ?_, ?_⟩
    · rw [kept.flags]
      simp only [block.flags]
    · rw [kept.size]
      simp only
      omega
    · by_cases init : ∃ traits, b.traits = some traits ∧ traits.init = true
      · obtain ⟨traits, typed, init⟩ := init
        rw [(whole traits typed).2 init, List.take_zero, List.take_zero]
      · rw [content (fun traits typed => by
          by_contra has
          exact init ⟨traits, typed, by simpa using has⟩)]
    · rw [if_neg (Ne.symm other)]
      unfold Released
      rw [if_neg (by omega)]
      simp [World.store, other]

end Renew

section Renew

variable {w w₁ : World} {p len : Nat} {b next : Buffer}

/-- Where no initializer succeeds a copy provides the buffer under no other condition. -/
theorem copied_only (h : Held w p b)
    (sized : (b.traits.any fun traits => decide (traits.size = 0)) = false)
    (renew : ¬ b.kept len) (free : ¬ b.pinned)
    (alloc : bufferAlloc refusing w (detachSize b.traits len) { b.flags with immutable := false } =
      (w₁, some w.mallocs))
    (block : Provided w w₁ (detachSize b.traits len)
    { b.flags with immutable := false } next) (many : 2 ≤ b.refs)
    (result : AllOrNothing (bufferDetach refusing w p len) p b len) :
    len + 64 ≤ blockSize (detachSize b.traits len) ∧
      b.used + 64 ≤ blockSize (detachSize b.traits len) ∧
      ∀ traits, b.traits = some traits → b.used % traits.size = 0 ∧
        (traits.init = true → min b.used (detachSize b.traits len) = 0) := by
  have size := block.size
  have limit : blockSize (detachSize b.traits len) < sizeLimit := Nat.mod_lt _ (by decide)
  have eq := copied_eq h sized renew free alloc block many
  have kept := bufferSet_block refusing w₁.ledger (b := { next with traits := b.traits })
    (by simp only [block.used]; exact Nat.zero_le _) b.traits 0 (.bytes b.content)
  have count := length_bufferContent b
  rcases set : bufferSet refusing w₁.ledger { next with traits := b.traits } b.traits 0
    (.bytes b.content) with ⟨l, b', e | k⟩
  · exact absurd result (copied_failed h sized renew free alloc block many set)
  rw [set] at eq kept
  rw [eq] at result
  have header : ¬ blockSize (detachSize b.traits len) < 64 := by
    have sound := result.sound
    have fault := block.fault
    rw [h.sound, Bool.false_or] at fault
    exact of_decide_eq_false (fault.symm.trans sound)
  obtain ⟨b'', got⟩ := result.all _ rfl
  have same : b' = b'' := by
    have cell := got.cell
    simp only [World.store_self] at cell
    exact Option.some.inj cell
  subst same
  have room := got.room
  rw [kept.size] at room
  simp only at room
  have fits : b.used ≤ next.size := by
    by_contra large
    obtain ⟨e, failed⟩ := copy_large refusing w₁.ledger
      (b := { next with traits := b.traits }) (c := b.content)
      (by simp only [count]; omega) b.traits
    rw [failed] at set
    cases (Prod.mk.inj (Prod.mk.inj set).2).2
  refine ⟨by omega, by omega, ?_⟩
  intro traits typed
  have some_ : traits.size ≠ 0 := by
    intro zero
    simp [typed, zero] at sized
  have part : b.used % traits.size = 0 := by
    by_contra part
    obtain ⟨e, failed⟩ := copy_partial refusing w₁.ledger
      (b := { next with traits := b.traits }) (c := b.content) typed (by rw [count]; exact part)
    rw [typed] at set failed
    rw [failed] at set
    cases (Prod.mk.inj (Prod.mk.inj set).2).2
  refine ⟨part, ?_⟩
  intro init
  by_contra data
  have none := copy_refusing (l := w₁.ledger) (b := { next with traits := b.traits })
    (c := b.content) block.used (by simp only [count]; exact fits)
    (by rw [count]; omega) typed some_ (by rw [count]; exact part) init (by omega)
  rw [typed] at set none
  rw [set] at none
  have lengths := congrArg List.length got.content
  simp only [List.length_take, length_bufferContent] at lengths none
  omega

/-- Under the condition detaching is all or nothing, and nothing means that the buffer is
    the same. -/
theorem detached (env : Env) (h : Held w p b) (able : Detachable b len) :
    AllOrNothing (bufferDetach env w p len) p b len ∧
      ((bufferDetach env w p len).2 = none → (bufferDetach env w p len).1.cells p = some b) := by
  have nothing : ∀ w', w'.fault = false → w'.cells p = some b →
      AllOrNothing (w', none) p b len := fun w' sound cell =>
    ⟨sound, nofun, fun _ => ⟨b, cell, rfl, rfl, rfl⟩⟩
  by_cases zero : (b.traits.any fun traits => decide (traits.size = 0)) = true
  · have eq : bufferDetach env w p len = (w, none) := by
      unfold bufferDetach
      simp only [h.cell]
      exact if_pos zero
    rw [eq]
    exact ⟨nothing w h.sound h.cell, fun _ => h.cell⟩
  have sized := Bool.eq_false_iff.mpr zero
  unfold Detachable at able
  by_cases keep : b.kept len
  · rw [if_pos keep] at able
    rw [detach_kept h.cell sized keep]
    have refs := h.refs
    have single := keep.1
    have room : len ≤ b.size := by
      rcases able with bad | pinned | room
      · exact absurd bad zero
      · have many := pinned.1
        omega
      · exact room
    refine ⟨⟨h.sound, ?_, nofun⟩, nofun⟩
    intro q eq
    rw [← Option.some.inj eq]
    exact ⟨b, h.cell, by omega, keep.2.2, room, h.used, rfl, by rw [if_pos rfl]⟩
  rw [if_neg keep] at able
  by_cases pinned : b.pinned
  · rw [detach_pinned h.cell sized keep pinned]
    exact ⟨nothing w h.sound h.cell, fun _ => h.cell⟩
  obtain ⟨room, enough, copies⟩ := (able.resolve_left zero).resolve_left pinned
  rcases bufferAlloc_provided env w (detachSize b.traits len)
      { b.flags with immutable := false } with
    ⟨_, w₁, alloc, cells, fault⟩ | ⟨w₁, next, alloc, block⟩
  · rw [detach_refused h.cell sized keep pinned alloc]
    have cell := (congrFun cells p).trans h.cell
    exact ⟨nothing w₁ (fault.trans h.sound) cell, fun _ => cell⟩
  by_cases one : b.refs < 2
  · refine ⟨(moved_iff h sized keep pinned alloc block one).mpr ⟨room, enough⟩, ?_⟩
    have made : w₁.cells w.mallocs = some next := by rw [block.cells, World.store_self]
    have refs := h.refs
    have lower : refcountLower b.refs = (0, true) := by
      rw [show b.refs = 1 by omega]
      rfl
    rw [detach_moved h.cell sized keep pinned alloc made lower]
    nofun
  · have many : 2 ≤ b.refs := Nat.le_of_not_lt one
    have all : b.taken (detachSize b.traits len) = b.used := by
      unfold Buffer.taken
      rw [if_neg (fun h => one h.1)]
    rw [all] at enough
    obtain ⟨result, some_⟩ :=
      copied_all h sized keep pinned alloc block many room enough (copies many)
    exact ⟨result, fun none => absurd none some_⟩

theorem refusing_malloc (n k : Nat) : refusing.malloc n k ≠ 0 := by
  intro null
  cases null

/-- Detaching that is all or nothing whatever the environment answers needs the condition. -/
theorem detachable (h : Held w p b)
    (all : ∀ env, AllOrNothing (bufferDetach env w p len) p b len) : Detachable b len := by
  unfold Detachable
  by_cases zero : (b.traits.any fun traits => decide (traits.size = 0)) = true
  · exact .inl zero
  have sized := Bool.eq_false_iff.mpr zero
  refine .inr ?_
  by_cases keep : b.kept len
  · rw [if_pos keep]
    have result := all refusing
    rw [detach_kept h.cell sized keep] at result
    obtain ⟨b', got⟩ := result.all p rfl
    have same := got.cell
    rw [h.cell] at same
    have room := got.room
    rw [← Option.some.inj same] at room
    exact .inr room
  rw [if_neg keep]
  by_cases pinned : b.pinned
  · exact .inl pinned
  refine .inr ?_
  rcases bufferAlloc_provided refusing w (detachSize b.traits len)
      { b.flags with immutable := false } with
    ⟨null, _⟩ | ⟨w₁, next, alloc, block⟩
  · exact absurd null (refusing_malloc _ _)
  by_cases one : b.refs < 2
  · obtain ⟨room, enough⟩ :=
      (moved_iff h sized keep pinned alloc block one).mp (all refusing)
    exact ⟨room, enough, fun many => absurd one (Nat.not_lt.mpr many)⟩
  · have many : 2 ≤ b.refs := Nat.le_of_not_lt one
    obtain ⟨room, enough, whole⟩ :=
      copied_only h sized keep pinned alloc block many (all refusing)
    refine ⟨room, ?_, fun _ => whole⟩
    unfold Buffer.taken
    rw [if_neg (fun h => one h.1)]
    exact enough

end Renew

section Arrays

/-! The operations on arrays that detach -/

variable {env : Env} {w : World} {p q len : Nat} {b b₁ : Buffer}

theorem Obtained.refs (h : Obtained w p q b b₁ len) :
    b₁.refs = if q = p then b.refs else 1 := by
  have released := h.released
  by_cases same : q = p
  · rw [if_pos same] at released ⊢
    rw [released]
  · rw [if_neg same]
    exact h.single

/-- Nothing has happened yet. -/
theorem Held.usable (h : Held w p b) {r : World × Array × Option Nat} (arr : r.2.1 = some p)
    (cells : r.1.cells = w.cells) : Usable r p b :=
  fun _ => ⟨p, b, arr, (congrFun cells p).trans h.cell, h.used, (if_pos rfl).symm⟩

theorem Held.refuse (h : Held w p b) : Held w.refuse p b :=
  ⟨h.cell, h.made, h.sound, h.refs, h.used⟩

section Ends

/-! Their ends, on the buffer that there is then -/

variable (cell : w.cells q = some b₁) (used : b₁.used ≤ b₁.size)
  (refs : b₁.refs = if q = p then b.refs else 1)

include cell used refs

theorem setAt_usable (traits : Traits) (pos : Nat) (src : Data) :
    Usable (setAt env w q traits pos src) p b := by
  intro _
  unfold setAt
  simp only [cell]
  have block := bufferSet_block env w.ledger used (some traits) pos src
  rcases set : bufferSet env w.ledger b₁ (some traits) pos src with ⟨l, b', e | k⟩
  · rw [set] at block
    exact ⟨q, b', rfl, World.store_self _ _ _, block.used, block.refs.trans refs⟩
  · rw [set] at block
    exact ⟨q, b', rfl, World.store_self _ _ _, block.used, block.refs.trans refs⟩

theorem insertAt_usable (pos n : Nat) : Usable (insertAt env w q pos n) p b := by
  intro failed
  unfold insertAt at failed ⊢
  simp only [cell] at failed ⊢
  rw [bufferInsert_failed env w.ledger b₁ pos n failed]
  exact ⟨q, b₁, rfl, World.store_self _ _ _, used, refs⟩

theorem sliceAt_usable (before off total : Nat) :
    Usable (sliceAt env w q before off total) p b := by
  intro failed
  unfold sliceAt at failed ⊢
  simp only [cell] at failed ⊢
  by_cases missing : before < total
  · rw [if_pos missing] at failed ⊢
    rcases insert : bufferInsert env w.ledger b₁ before (total - before) with ⟨l, b', _ | addr⟩
    · have same := bufferInsert_failed env w.ledger b₁ before (total - before) (by rw [insert])
      rw [insert] at same
      obtain ⟨_, same⟩ := Prod.mk.inj same
      rw [(Prod.mk.inj same).1]
      exact ⟨q, b₁, rfl, World.store_self _ _ _, used, refs⟩
    · rw [insert] at failed
      simp only at failed
      split at failed
      · split at failed <;> cases failed
      · cases failed
  · rw [if_neg missing] at failed
    cases failed

end Ends

/-- An operation that detaches and goes on with the buffer. -/
theorem detach_usable (env : Env) (h : Held w p b) (able : Detachable b len)
    (rest : World → Nat → World × Array × Option Nat)
    (usable : ∀ w q b₁, w.cells q = some b₁ → b₁.used ≤ b₁.size →
      (b₁.refs = if q = p then b.refs else 1) → Usable (rest w q) p b) :
    Usable (match bufferDetach env w p len with
      | (w, none) => (w, some p, none)
      | (w, some p) => rest w p) p b := by
  obtain ⟨result, same⟩ := detached env h able
  rcases detach : bufferDetach env w p len with ⟨w', _ | q⟩
  · rw [detach] at same
    exact fun _ => ⟨p, b, rfl, same rfl, h.used, (if_pos rfl).symm⟩
  · rw [detach] at result
    obtain ⟨b₁, got⟩ := result.all q rfl
    exact usable w' q b₁ got.cell got.used got.refs

theorem arraySet_usable (env : Env) (h : Held w p b) (able : Detachable b len)
    (traits : Option Traits) (src : Data) (off : Int)
    (asked : ∀ t, traits = some t → (setPos t b.used off).toNat + src.len = len) :
    Usable (arraySet env w (some p) traits src off) p b := by
  unfold arraySet
  cases traits with
  | none => exact h.usable rfl rfl
  | some traits =>
      have total := asked traits rfl
      simp only
      by_cases misfit : traits.size = 0 ∨ src.len % traits.size ≠ 0
      · rw [if_pos misfit]
        exact h.usable rfl rfl
      rw [if_neg misfit]
      simp only [h.cell, total]
      by_cases other : b.traits ≠ some traits
      · rw [if_pos other]
        exact h.usable rfl rfl
      rw [if_neg other]
      by_cases range : setPos traits b.used off < 0 ∨ sizeLimit ≤ len
      · rw [if_pos range]
        exact h.usable rfl rfl
      rw [if_neg range]
      by_cases detach : b.size < len ∨ b.flags.immutable = true ∨ b.shared = true
      · rw [if_pos detach]
        exact detach_usable env h able
          (fun w q => setAt env w q traits (setPos traits b.used off).toNat src)
          fun w q b₁ cell used refs => setAt_usable cell used refs _ _ _
      · rw [if_neg detach]
        exact setAt_usable h.cell h.used (if_pos rfl).symm _ _ _

theorem arraySlice_usable (env : Env) (h : Held w p b) {off n : Nat}
    (able : Detachable b (max b.used (off + n))) :
    Usable (arraySlice env w (some p) off n) p b := by
  unfold arraySlice
  simp only
  by_cases range : sizeLimit ≤ off + n
  · rw [if_pos range]
    exact h.usable rfl rfl
  rw [if_neg range]
  simp only [h.cell]
  have rest : Usable
      (if b.size < off + n ∨ b.flags.immutable = true ∨ b.shared = true then
        match bufferDetach env w p (max b.used (off + n)) with
        | (w, none) => (w, some p, none)
        | (w, some p) => sliceAt env w p b.used off (off + n)
      else sliceAt env w p b.used off (off + n)) p b := by
    split
    · exact detach_usable env h able (fun w q => sliceAt env w q b.used off (off + n))
        fun w q b₁ cell used refs => sliceAt_usable cell used refs _ _ _
    · exact sliceAt_usable h.cell h.used (if_pos rfl).symm _ _ _
  cases b.traits with
  | none => exact rest
  | some traits =>
      by_cases misfit : decide (traits.size = 0 ∨ off % traits.size ≠ 0 ∨ n % traits.size ≠ 0 ∨
          b.used % traits.size ≠ 0) = true
      · exact (if_pos misfit).symm ▸ h.usable rfl rfl
      · exact (if_neg misfit).symm ▸ rest

theorem arrayInsert_usable (env : Env) (h : Held w p b) {pos n : Nat}
    (able : Detachable b ((max pos b.used + n) % sizeLimit)) :
    Usable (arrayInsert env w (some p) pos n) p b := by
  unfold arrayInsert
  by_cases range : longRoom pos < n
  · rw [if_pos range]
    exact h.usable rfl rfl
  rw [if_neg range]
  simp only [h.cell]
  have held : Held (if sizeLimit ≤ max pos b.used + n then w.refuse else w) p b := by
    split
    · exact h.refuse
    · exact h
  split
  · exact insertAt_usable held.cell held.used (if_pos rfl).symm _ _
  · exact detach_usable env held able (fun w q => insertAt env w q pos n)
      fun w q b₁ cell used refs => insertAt_usable cell used refs _ _

end Arrays

/-- Detaching is all or nothing, and an array operation that fails after it asked for this
    length leaves its array usable, whatever the environment answers, exactly under the
    condition. -/
theorem detaches_iff {w : World} {p : Nat} {b : Buffer} (h : Held w p b) (len : Nat) :
    (∀ env, AllOrNothing (bufferDetach env w p len) p b len ∧ Keeps env w p b len) ↔
      Detachable b len := by
  constructor
  · intro all
    exact detachable h fun env => (all env).1
  · intro able env
    refine ⟨(detached env h able).1, ?_, ?_, ?_⟩
    · exact fun traits src off asked => arraySet_usable env h able traits src off asked
    · rintro off n rfl
      exact arraySlice_usable env h able
    · rintro pos n rfl
      exact arrayInsert_usable env h able

section Runs

/-- 65 typed bytes with two holders. -/
def sharedBytes : Buffer :=
  ⟨128, 192, 65, 2, .none, some ⟨0, 1, false, none⟩, fun _ => 0, fun _ => none⟩

def sharedWorld : World := { World.empty.store 0 sharedBytes with mallocs := 1 }

theorem sharedWorld_held : Held sharedWorld 0 sharedBytes :=
  ⟨rfl, Nat.one_pos, rfl, Nat.two_pos, by decide⟩

theorem detaches_shared :
    AllOrNothing (bufferDetach granting sharedWorld 0 65) 0 sharedBytes 65 := by
  have able : Detachable sharedBytes 65 := by
    unfold Detachable
    refine .inr (.inr ?_)
    rw [if_neg (by decide)]
    refine ⟨by decide +kernel, by decide +kernel, ?_⟩
    rintro _ traits typed
    rw [← Option.some.inj typed]
    exact ⟨by decide, nofun⟩
  exact ((detaches_iff sharedWorld_held 65).mpr able granting).1

/-- One byte set in the array of one holder: the copy of 65 bytes does not fit into a block
    for one, and the other holder is left alone with a buffer that both use. -/
theorem copy_releases :
    ¬ AllOrNothing (bufferDetach granting sharedWorld 0 1) 0 sharedBytes 1 ∧
      ¬ Usable (arraySet granting sharedWorld (some 0) (some ⟨0, 1, false, none⟩) (.bytes [7]) 0) 0
        sharedBytes := by
  constructor
  · intro result
    obtain ⟨b', cell, _, _, refs⟩ := result.nothing (by decide +kernel)
    have left : ((bufferDetach granting sharedWorld 0 1).1.cells 0).map Buffer.refs = some 1 := by
      decide +kernel
    rw [cell] at left
    have one : b'.refs = 1 := Option.some.inj left
    rw [refs] at one
    cases one
  · intro usable
    obtain ⟨q, b', arr, cell, _, refs⟩ := usable (by decide +kernel)
    have same : some 0 = some q := (show _ = some 0 by decide +kernel).symm.trans arr
    obtain rfl := Option.some.inj same
    have left : ((arraySet granting sharedWorld (some 0) (some ⟨0, 1, false, none⟩)
        (.bytes [7]) 0).1.cells 0).map Buffer.refs = some 1 := by
      decide +kernel
    rw [cell] at left
    have one : b'.refs = 1 := Option.some.inj left
    rw [refs] at one
    cases one

end Runs

end Mpt.Heap
