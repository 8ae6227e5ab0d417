import Mpt.Array.Detach

/-! # Values of an array

`mpt_values_prepare` makes room for numbers at the end of an array: zeros, or the last elements
once more.  Lengths count elements here and bytes there.
-/

namespace Mpt.Heap

section

variable (env : Env) (l : Ledger) (b : Buffer)

theorem finalizeAll_traits (offs : List Nat) : (finalizeAll l b offs).2.traits = b.traits := by
  induction offs generalizing l b with
  | nil => rfl
  | cons off offs ih => exact (ih _ _).trans rfl

theorem construct_traits (size off : Nat) : (construct env l b size off).2.1.traits = b.traits := by
  unfold construct
  split <;> rfl

theorem initAll_traits (size : Nat) (offs : List Nat) :
    (initAll env l b size offs).2.1.traits = b.traits := by
  induction offs generalizing l b with
  | nil => rfl
  | cons off offs ih =>
      have one := construct_traits env l b size off
      unfold initAll
      rcases made : construct env l b size off with ⟨l', b', _ | _⟩
      · rw [made] at one
        exact one
      · rw [made] at one
        exact (ih l' b').trans one

theorem copyAll_traits (size : Nat) (hasSource : Bool) (count : Nat) (offs : List Nat) :
    (copyAll env l b size hasSource count offs).2.1.traits = b.traits := by
  induction offs generalizing l b count with
  | nil => rfl
  | cons off offs ih =>
      have taken : (if hasSource then construct env l b size off else (l, b, false)).2.1.traits =
          b.traits := by
        split
        · exact construct_traits env l b size off
        · rfl
      unfold copyAll
      rcases made : (if hasSource then construct env l b size off else (l, b, false)) with ⟨l', b', ok⟩
      rw [made] at taken
      simp only
      split
      · exact (ih l' b' _).trans taken
      · have one := construct_traits env l' b' size off
        rcases made' : construct env l' b' size off with ⟨l'', b'', _ | _⟩
        · rw [made'] at one
          exact one.trans taken
        · rw [made'] at one
          exact (ih l'' b'' _).trans (one.trans taken)

/-- The traits of a buffer are not changed by what is stored. -/
theorem bufferSet_traits (srcTraits : Option Traits) (pos : Nat) (src : Data) :
    (bufferSet env l b srcTraits pos src).2.1.traits = b.traits := by
  unfold bufferSet
  simp only
  split
  · rfl
  split
  · rfl
  cases typed : b.traits with
  | none =>
      simp only
      split <;> simp [Buffer.put, typed]
  | some traits =>
      rcases srcTraits with _ | st
      · exact typed
      simp only
      split
      · exact typed
      split
      · exact typed
      have ended : (if traits.fini.isSome then
          finalizeAll l b (offsets pos (b.used - b.used % st.size) st.size) else (l, b)).2.traits =
            some traits := by
        split
        · exact (finalizeAll_traits l b _).trans typed
        · exact typed
      rcases gone : (if traits.fini.isSome then
          finalizeAll l b (offsets pos (b.used - b.used % st.size) st.size) else (l, b)) with ⟨l₁, b₁⟩
      rw [gone] at ended
      simp only at ended ⊢
      split
      · have inits := initAll_traits env l₁ b₁ st.size (offsets (b.used - b.used % st.size) pos st.size)
        rcases made : initAll env l₁ b₁ st.size (offsets (b.used - b.used % st.size) pos st.size) with
          ⟨l₂, b₂, _ | off⟩
        · rw [made] at inits
          have begun : b₂.traits = some traits := inits.trans ended
          have copies := fun hasSource => copyAll_traits env l₂ b₂ st.size hasSource 0
            (offsets pos (pos + src.len) st.size)
          cases src with
          | null n =>
              have copied := copies false
              rcases made' : copyAll env l₂ b₂ st.size false 0
                (offsets pos (pos + (Data.null n).len) st.size) with ⟨l₃, b₃, count, _ | off⟩ <;>
                rw [made'] at copied <;> simp only [made']
              · exact copied.trans begun
              · split
                · exact (finalizeAll_traits _ _ _).trans (copied.trans begun)
                · exact copied.trans begun
          | bytes c =>
              have copied := copies true
              rcases made' : copyAll env l₂ b₂ st.size true 0
                (offsets pos (pos + (Data.bytes c).len) st.size) with ⟨l₃, b₃, count, _ | off⟩ <;>
                rw [made'] at copied <;> simp only [made']
              · exact copied.trans begun
              · split
                · exact (finalizeAll_traits _ _ _).trans (copied.trans begun)
                · exact copied.trans begun
        · rw [made] at inits
          exact inits.trans ended
      · simp only [Buffer.put]
        split <;> exact ended
end

/-- A number as `size_t` -/
def toSize (n : Int) : Nat := (n % 2 ^ 64).toNat

/-- `len * sizeof(double)` or `(-len) * sizeof(double)` -/
def valuesAdd (len : Int) : Nat := toSize ((if 0 ≤ len then len else toLong (-len)) * 8)

/-- `used < (-len)`: bytes are compared with elements. -/
def Refused (used : Nat) (len : Int) : Prop := len < 0 ∧ toLong used < toLong (-len)

instance (used : Nat) (len : Int) : Decidable (Refused used len) := inferInstanceAs (Decidable (_ ∧ _))

/-- What is done with the buffer that has the room: the bytes behind the `used` ones are cleared,
    or copied from the bytes in front of them. -/
def valuesFill (w : World) (q : Nat) (used : Nat) (len : Int) : World × Array × Option Nat :=
  match w.cells q with
  | none => (w.crash, some q, none)
  | some b =>
      let add := valuesAdd len
      let next := { b with used := (used + add) % sizeLimit }
      if 0 ≤ len then
        (poke w q next used (List.replicate add 0), some q, some (b.base + used))
      else if used < add then
        -- the source starts in front of the content
        ((w.store q next).crash, some q, some (b.base + used))
      else
        (poke w q next used (b.mem.read (b.base + (used - add)) add), some q, some (b.base + used))

/-- `mpt_values_prepare`, with the traits of `double` -/
def valuesPrepare (env : Env) (traits : Traits) (w : World) (arr : Array) (len : Int) :
    World × Array × Option Nat :=
  match arr with
  | none =>
      if len < 0 then (w, none, none)
      else
        let add := valuesAdd len
        match bufferAlloc env w add .none with
        | (w, none) => (w, none, none)
        | (w, some p) =>
            match w.cells p with
            | none => (w.crash, some p, none)
            | some b =>
                (poke w p { b with used := add, traits := some traits } 0 (List.replicate add 0),
                  some p, some b.base)
  | some p =>
      match w.cells p with
      | none => (w.crash, some p, none)
      | some b =>
          if b.traits ≠ some traits then (w, some p, none)
          else if Refused b.used len then (w, some p, none)
          else
            match bufferDetach env w p ((b.used + valuesAdd len) % sizeLimit) with
            | (w, none) => (w, some p, none)
            | (w, some q) => valuesFill w q b.used len

/-! ## What is asked for -/

/-- Memory for every request. -/
def Granting (env : Env) : Prop := ∀ n size, env.malloc n size ≠ 0

/-- Elements without functions in a buffer. -/
structure Elements (traits : Traits) (w : World) (p : Nat) (b : Buffer) : Prop where
  held : Held w p b
  typed : b.traits = some traits
  sized : 0 < traits.size
  plain : traits.init = false
  whole : b.used % traits.size = 0

/-- The array has this content, in elements without functions. -/
def Carries (traits : Traits) (w : World) (arr : Array) (content : List Byte) : Prop :=
  w.fault = false ∧
    match arr with
    | none => content = []
    | some p => ∃ b, Elements traits w p b ∧ b.content = content

/-- The content may be copied for this holder of the array. -/
def Extensible (w : World) (arr : Array) : Prop :=
  match arr with
  | none => True
  | some p => ∀ b, w.cells p = some b → ¬ b.pinned

theorem not_pinned {b : Buffer} (one : b.refs ≤ 1) : ¬ b.pinned :=
  fun pinned => absurd pinned.1 (Nat.not_le.mpr (Nat.lt_succ_of_le one))

theorem Extensible.single {w : World} {p : Nat} {b : Buffer} (cell : w.cells p = some b)
    (one : b.refs ≤ 1) : Extensible w (some p) := by
  intro b' same
  obtain rfl := Option.some.inj (cell.symm.trans same)
  exact not_pinned one

theorem Carries.unique {traits : Traits} {w : World} {arr : Array} {c c' : List Byte}
    (h : Carries traits w arr c) (h' : Carries traits w arr c') : c = c' := by
  obtain ⟨-, h⟩ := h
  obtain ⟨-, h'⟩ := h'
  cases arr with
  | none => exact Eq.trans h (Eq.symm h')
  | some p =>
      obtain ⟨b, elements, content⟩ := h
      obtain ⟨b', elements', content'⟩ := h'
      have same := elements.held.cell.symm.trans elements'.held.cell
      rw [← content, ← content', Option.some.inj same]

/-- The array has the buffer `b` at `p` with `n` numbers; no object takes more than half of the
    address space. -/
structure Doubles (traits : Traits) (w : World) (p : Nat) (b : Buffer) (n : Nat) : Prop where
  held : Held w p b
  typed : b.traits = some traits
  double : traits.size = 8 ∧ traits.init = false ∧ traits.fini = none
  used : b.used = 8 * n
  size : b.size ≤ longMax

/-- There are elements enough. -/
def Enough (n : Nat) (len : Int) : Prop := 0 ≤ len ∨ -len ≤ n

instance (n : Nat) (len : Int) : Decidable (Enough n len) := inferInstanceAs (Decidable (_ ∨ _))

/-- Zeros, or the last elements. -/
def addedBytes (content : List Byte) (n : Nat) (len : Int) : List Byte :=
  if 0 ≤ len then List.replicate (8 * len.natAbs) 0 else content.drop (8 * (n - len.natAbs))

/-- The numbers are added to a private buffer, or nothing is changed. -/
structure Prepares (w : World) (p : Nat) (b : Buffer) (n : Nat) (len : Int)
    (out : World × Array × Option Nat) : Prop where
  sound : out.1.fault = false
  appended : Enough n len → ∃ q b', out.2 = (some q, some (b'.base + b.used)) ∧
    out.1.cells q = some b' ∧ b'.content = b.content ++ addedBytes b.content n len ∧
    b'.used ≤ b'.size ∧ b'.refs = 1 ∧ (q ≠ p → Released out.1 p b)
  failed : ¬ Enough n len → out.2 = (some p, none) ∧ out.1.cells p = some b

/-- The bytes of the numbers there are and of those that are asked for. -/
def wholeSize (n : Nat) (len : Int) : Nat := 8 * (n + len.natAbs)

/-- The number of bytes does not exceed the address space and the content may be copied; or the
    length is greater than the number of bytes there are, or the content may not be copied. -/
def Preparable (b : Buffer) (n : Nat) (len : Int) : Prop :=
  if Enough n len then wholeSize n len + 192 ≤ sizeLimit ∧ ¬ b.pinned
  else (b.used < len.natAbs ∧ len ≠ -2 ^ 63) ∨ b.pinned

section

variable {traits : Traits} {env : Env} {w : World} {p total : Nat} {b : Buffer} {n : Nat} {len : Int}

theorem Elements.notZero (h : Elements traits w p b) :
    (b.traits.any fun traits => decide (traits.size = 0)) = false := by
  rw [h.typed]
  simpa using Nat.pos_iff_ne_zero.mp h.sized

theorem Elements.detachSize (h : Elements traits w p b) (part : total % traits.size = 0) :
    detachSize b.traits total = total := by
  rw [h.typed, Mpt.Heap.detachSize, if_pos part]

theorem Doubles.elements (h : Doubles traits w p b n) : Elements traits w p b where
  held := h.held
  typed := h.typed
  sized := by rw [h.double.1]; decide
  plain := h.double.2.1
  whole := by rw [h.used, h.double.1]; omega

theorem Doubles.sized (h : Doubles traits w p b n) :
    (b.traits.any fun traits => decide (traits.size = 0)) = false := h.elements.notZero

theorem Doubles.detachSize (h : Doubles traits w p b n) (part : total % 8 = 0) :
    detachSize b.traits total = total := h.elements.detachSize (by rw [h.double.1, part])

/-- With memory for the request, a new block is there unless the copy fails. -/
theorem detach_renewed (granted : Granting env) (h : Held w p b)
    (sized : (b.traits.any fun traits => decide (traits.size = 0)) = false)
    {total : Nat} (renew : ¬ b.kept total) (free : ¬ b.pinned) :
    (∃ w' b', bufferDetach env w p total = (w', some w.mallocs) ∧ w'.cells w.mallocs = some b' ∧
      b'.size = blockSize (detachSize b.traits total) - 64 ∧ b'.traits = b.traits ∧
      w'.mallocs = w.mallocs + 1) ∨
    ∃ w', bufferDetach env w p total = (w', none) ∧ w'.cells p ≠ some b := by
  rcases bufferAlloc_provided env w (detachSize b.traits total)
      { b.flags with immutable := false } with ⟨null, -⟩ | ⟨w₁, next, alloc, block⟩
  · exact absurd null (granted _ _)
  by_cases one : b.refs < 2
  · have made : w₁.cells w.mallocs = some next := by rw [block.cells, World.store_self]
    have refs := h.refs
    have lower : refcountLower b.refs = (0, true) := by
      rw [show b.refs = 1 by omega]
      rfl
    have other : w.mallocs ≠ p := Nat.ne_of_gt h.made
    have moved := detach_moved h.cell sized renew free alloc made lower
    rcases shrunk : shrink w₁.ledger b (detachSize b.traits total) with ⟨l, k⟩
    rw [shrunk] at moved
    simp only at moved
    refine .inl ⟨_, moveContent { next with traits := b.traits } b k, moved, ?_, block.size, rfl, ?_⟩
    · split
      · exact (World.free_ne _ other).trans (World.store_self _ _ _)
      · exact (World.free_ne _ other).trans (World.store_self _ _ _)
    · split <;> exact block.mallocs
  · have many : 2 ≤ b.refs := Nat.le_of_not_lt one
    have eq := copied_eq h sized renew free alloc block many
    have kept := bufferSet_block env w₁.ledger (b := { next with traits := b.traits })
      (by simp only [block.used]; exact Nat.zero_le _) b.traits 0 (.bytes b.content)
    have typed := bufferSet_traits env w₁.ledger { next with traits := b.traits } b.traits 0
      (.bytes b.content)
    rcases set : bufferSet env w₁.ledger { next with traits := b.traits } b.traits 0
      (.bytes b.content) with ⟨l, b', e | k⟩
    · rw [set] at eq kept
      refine .inr ⟨_, eq, ?_⟩
      have single : b'.refs = 1 := kept.refs.trans block.refs
      have other : p ≠ w.mallocs := Nat.ne_of_lt h.made
      unfold bufferUnref
      simp only [World.store_self, single]
      rw [show refcountLower 1 = (0, true) from rfl]
      simp only
      rw [World.free_ne _ other]
      simp only [World.store, other, if_false, if_true, ne_eq, Option.some.injEq]
      intro same
      have := congrArg Buffer.refs same
      simp only at this
      omega
    · rw [set] at eq kept typed
      exact .inl ⟨_, b', eq, World.store_self _ _ _, kept.size.trans block.size, typed,
        block.mallocs⟩

theorem Elements.detachable (h : Elements traits w p b) (part : total % traits.size = 0)
    (le : b.used ≤ total) (small : total + 192 ≤ sizeLimit) : Detachable b total := by
  have size := h.detachSize part
  have block := blockSize_eq small
  have room := le_roomFor total
  have taken : b.taken total ≤ total := by
    unfold Buffer.taken
    split <;> omega
  refine .inr (.inr ?_)
  split
  · rename_i keep
    rw [← size]
    exact keep.2.1
  · rw [size]
    refine ⟨by omega, by omega, ?_⟩
    intro _ traits' typed
    rw [h.typed] at typed
    cases typed
    rw [h.plain]
    exact ⟨h.whole, nofun⟩

/-- Detaching of elements succeeds where there is memory. -/
theorem Elements.detach (granted : Granting env) (h : Elements traits w p b) (free : ¬ b.pinned)
    (part : total % traits.size = 0) (le : b.used ≤ total) (small : total + 192 ≤ sizeLimit) :
    ∃ w' q b₁, bufferDetach env w p total = (w', some q) ∧ w'.fault = false ∧ q < w'.mallocs ∧
      b₁.traits = b.traits ∧ Obtained w' p q b b₁ total := by
  obtain ⟨all, same⟩ := detached env h.held (h.detachable part le small)
  by_cases keep : b.kept total
  · rw [detach_kept h.held.cell h.notZero keep] at all ⊢
    obtain ⟨b₁, got⟩ := all.all p rfl
    have released := got.released
    rw [if_pos rfl] at released
    exact ⟨w, p, b₁, rfl, all.sound, h.held.made, congrArg Buffer.traits released, got⟩
  · rcases detach_renewed granted h.held h.notZero keep free with
      ⟨w', b', out, cell, -, traits, mallocs⟩ | ⟨w', out, changed⟩
    · rw [out] at all ⊢
      obtain ⟨b₁, got⟩ := all.all _ rfl
      obtain rfl := Option.some.inj (cell.symm.trans got.cell)
      exact ⟨w', _, b', rfl, all.sound, by omega, traits, got⟩
    · rw [out] at same
      exact absurd (same rfl) changed

/-- The buffer that was obtained starts with the old content. -/
theorem Obtained.front {w' : World} {q : Nat} {b₁ : Buffer} (got : Obtained w' p q b b₁ total)
    (size : Mpt.Heap.detachSize b.traits total = total) (le : b.used ≤ total) :
    ({ b₁ with used := b.used } : Buffer).content = b.content := by
  have same := got.content
  rw [size, Nat.min_eq_left le] at same
  have all : b.content.take b.used = b.content :=
    List.take_of_length_le (Nat.le_of_eq (length_bufferContent b))
  rw [all] at same
  have front : b.used ≤ b₁.used := by
    have := congrArg List.length same
    rw [List.length_take, length_bufferContent, length_bufferContent] at this
    omega
  rw [← same]
  simp only [Buffer.content]
  rw [Mem.take_read, Nat.min_eq_left front]

theorem Obtained.continued {w' : World} {q : Nat} {b₁ : Buffer} (got : Obtained w' p q b b₁ total)
    (size : Mpt.Heap.detachSize b.traits total = total) (le : b.used ≤ total) (l : List Byte) :
    (({ b₁ with used := b.used + l.length } : Buffer).put b.used l).content = b.content ++ l := by
  rw [← got.front size le]
  exact content_put { b₁ with used := b.used } l

theorem valuesAdd_eq (len : Int) : valuesAdd len = 8 * len.natAbs % 2 ^ 64 := by
  unfold valuesAdd toSize toLong
  split <;> omega

theorem wholeSize_mod (used : b.used = 8 * n) :
    (b.used + valuesAdd len) % sizeLimit = wholeSize n len % sizeLimit := by
  rw [valuesAdd_eq, used]
  unfold sizeLimit wholeSize
  omega

theorem length_addedBytes {content : List Byte} (length : content.length = 8 * n)
    (enough : Enough n len) : (addedBytes content n len).length = 8 * len.natAbs := by
  unfold Enough at enough
  unfold addedBytes
  split
  · simp
  · rw [List.length_drop, length]
    omega

/-- The numbers that are put behind the content of the buffer `b₁`. -/
def filling (b₁ : Buffer) (used : Nat) (len : Int) : List Byte :=
  if 0 ≤ len then List.replicate (valuesAdd len) 0
  else b₁.mem.read (b₁.base + (used - valuesAdd len)) (valuesAdd len)

theorem length_filling (b₁ : Buffer) (used : Nat) (len : Int) :
    (filling b₁ used len).length = valuesAdd len := by
  unfold filling
  split <;> simp

theorem fill_enough {w' : World} {q : Nat} {b₁ : Buffer} (cell : w'.cells q = some b₁)
    (used : b.used = 8 * n) (enough : Enough n len) :
    valuesFill w' q b.used len =
      (poke w' q { b₁ with used := wholeSize n len % sizeLimit } b.used (filling b₁ b.used len), some q,
        some (b₁.base + b.used)) := by
  have whole : (b.used + valuesAdd len) % sizeLimit = wholeSize n len % sizeLimit := wholeSize_mod used
  unfold valuesFill
  simp only [cell, whole]
  unfold filling
  by_cases zeros : 0 ≤ len
  · rw [if_pos zeros, if_pos zeros]
  · have inside : ¬ b.used < valuesAdd len := by
      unfold Enough at enough
      rw [valuesAdd_eq, used]
      omega
    rw [if_neg zeros, if_neg inside, if_neg zeros]

theorem poke_cells (w : World) (q : Nat) (b : Buffer) (off : Nat) (l : List Byte) :
    (poke w q b off l).cells q = some (b.put off l) := by
  unfold poke
  split <;> exact World.store_self _ _ _

/-- A result as it should be has all the numbers, in a buffer that has room for them. -/
theorem fill_fits {w' : World} {q : Nat} {b₁ : Buffer} (cell : w'.cells q = some b₁)
    (used : b.used = 8 * n) (enough : Enough n len)
    (done : Prepares w p b n len (valuesFill w' q b.used len)) :
    wholeSize n len < sizeLimit ∧ wholeSize n len ≤ b₁.size := by
  have filled := fill_enough cell used enough
  obtain ⟨q', b', out, made, content, -⟩ := done.appended enough
  have sound := done.sound
  rw [filled] at out made sound
  cases (Prod.mk.inj out).1
  rw [poke_cells] at made
  have length := congrArg List.length content
  rw [List.length_append, length_bufferContent, length_bufferContent,
    length_addedBytes ((length_bufferContent b).trans used) enough, ← Option.some.inj made, used] at length
  have whole : wholeSize n len % sizeLimit = wholeSize n len := by
    unfold wholeSize
    exact length.trans (by omega)
  have below : wholeSize n len < sizeLimit := by
    rw [← whole]
    exact Nat.mod_lt _ (by decide)
  refine ⟨below, ?_⟩
  by_contra short
  unfold poke at sound
  rw [if_pos] at sound
  · cases sound
  · rw [length_filling, valuesAdd_eq]
    unfold wholeSize sizeLimit at *
    simp only
    omega

/-- Where there is room, the content is continued. -/
theorem fill_done {w' : World} {q : Nat} {b₁ : Buffer} (h : Doubles traits w p b n)
    (enough : Enough n len) (below : wholeSize n len < sizeLimit) (sound : w'.fault = false)
    (got : Obtained w' p q b b₁ (wholeSize n len)) (whole : detachSize b.traits (wholeSize n len) =
      wholeSize n len) :
    Prepares w p b n len (valuesFill w' q b.used len) := by
  have used := h.used
  have add : valuesAdd len = 8 * len.natAbs := by
    rw [valuesAdd_eq]
    unfold wholeSize sizeLimit at below
    omega
  have total : wholeSize n len = b.used + (filling b₁ b.used len).length := by
    rw [length_filling, add, used]
    unfold wholeSize
    omega
  have room := got.room
  have put := got.continued whole (by omega) (filling b₁ b.used len)
  have old := got.front whole (by omega)
  have added : filling b₁ b.used len = addedBytes b.content n len := by
    unfold filling addedBytes
    by_cases zeros : 0 ≤ len
    · rw [if_pos zeros, if_pos zeros, add]
    · have many : len.natAbs ≤ n := by
        unfold Enough at enough
        omega
      rw [if_neg zeros, if_neg zeros, ← old]
      simp only [Buffer.content]
      rw [Mem.drop_read _ _ _ _ (by omega), add]
      congr 1 <;> omega
  have filled := fill_enough got.cell h.used enough
  rw [Nat.mod_eq_of_lt below, total] at filled
  have inside : ¬ b₁.size < b.used + (filling b₁ b.used len).length := by omega
  unfold poke at filled
  simp only [inside, if_false] at filled
  rw [filled]
  refine ⟨sound, ?_, fun not => absurd enough not⟩
  intro _
  refine ⟨q, ({ b₁ with used := b.used + (filling b₁ b.used len).length } : Buffer).put b.used
    (filling b₁ b.used len), rfl, World.store_self _ _ _, ?_, ?_, got.single, ?_⟩
  · rw [← added]
    exact put
  · simp only [Buffer.put]
    omega
  · intro other
    have released := got.released
    rw [if_neg other] at released
    unfold Released at released ⊢
    simpa [World.store, Ne.symm other] using released

theorem wholeSize_room (h : Doubles traits w p b n) :
    wholeSize n len % traits.size = 0 ∧ b.used ≤ wholeSize n len := by
  rw [h.double.1, h.used]
  unfold wholeSize
  omega

theorem prepare_refused (env : Env) (h : Doubles traits w p b n) (refused : Refused b.used len) :
    valuesPrepare env traits w (some p) len = (w, some p, none) := by
  unfold valuesPrepare
  simp only [h.held.cell]
  rw [if_neg (not_not_intro h.typed), if_pos refused]

theorem prepare_detach (env : Env) (h : Doubles traits w p b n) (open_ : ¬ Refused b.used len) :
    valuesPrepare env traits w (some p) len =
      match bufferDetach env w p (wholeSize n len % sizeLimit) with
      | (w, none) => (w, some p, none)
      | (w, some q) => valuesFill w q b.used len := by
  unfold valuesPrepare
  simp only [h.held.cell]
  rw [if_neg (not_not_intro h.typed), if_neg open_, wholeSize_mod h.used]

theorem refused_iff (h : Doubles traits w p b n) (range : -2 ^ 63 ≤ len ∧ len < 2 ^ 63) :
    Refused b.used len ↔ len < 0 ∧ b.used < len.natAbs ∧ len ≠ -2 ^ 63 := by
  have size := h.size
  have used := h.held.used
  unfold Refused toLong
  unfold longMax at size
  omega

/-- A pinned buffer is not detached, whatever the length. -/
theorem detach_refuses (env : Env) (h : Doubles traits w p b n) (pinned : b.pinned) (total : Nat) :
    bufferDetach env w p total = (w, none) :=
  detach_pinned h.held.cell h.sized (fun keep => by
    have one := keep.1
    have many := pinned.1
    omega) pinned

/-- The array as it was, when there is no memory. -/
structure Unprepared (p : Nat) (b : Buffer) (out : World × Array × Option Nat) : Prop where
  sound : out.1.fault = false
  none : out.2 = (some p, none)
  cell : out.1.cells p = some b

theorem prepares_or (env : Env) (h : Doubles traits w p b n) (range : -2 ^ 63 ≤ len ∧ len < 2 ^ 63)
    (able : Preparable b n len) :
    Prepares w p b n len (valuesPrepare env traits w (some p) len) ∨
      ((bufferDetach env w p (wholeSize n len)).2 = none ∧ Enough n len) ∧
        Unprepared p b (valuesPrepare env traits w (some p) len) := by
  have refused := refused_iff h range
  unfold Preparable at able
  by_cases enough : Enough n len
  · rw [if_pos enough] at able
    obtain ⟨small, free⟩ := able
    have open_ : ¬ Refused b.used len := by
      have used := h.used
      rw [refused]
      unfold Enough at enough
      omega
    have below : wholeSize n len < sizeLimit := by omega
    obtain ⟨all, same⟩ := detached env h.held (h.elements.detachable (wholeSize_room h).1 (wholeSize_room h).2 small)
    rw [prepare_detach env h open_, Nat.mod_eq_of_lt below]
    rcases out : bufferDetach env w p (wholeSize n len) with ⟨w', _ | q⟩
    · rw [out] at all same
      exact .inr ⟨⟨rfl, enough⟩, all.sound, rfl, same rfl⟩
    · rw [out] at all
      obtain ⟨b₁, got⟩ := all.all q rfl
      refine .inl (fill_done h enough below all.sound got (h.detachSize ?_))
      unfold wholeSize
      omega
  · rw [if_neg enough] at able
    have same : Prepares w p b n len (w, some p, none) :=
      ⟨h.held.sound, fun enough' => absurd enough' enough, fun _ => ⟨rfl, h.held.cell⟩⟩
    by_cases refuse : Refused b.used len
    · rw [prepare_refused env h refuse]
      exact .inl same
    · rcases able with ⟨many, least⟩ | pinned
      · refine absurd (refused.mpr ⟨?_, many, least⟩) refuse
        unfold Enough at enough
        omega
      · rw [prepare_detach env h refuse, detach_refuses env h pinned]
        exact .inl same

theorem prepares_of (granted : Granting env) (h : Doubles traits w p b n)
    (range : -2 ^ 63 ≤ len ∧ len < 2 ^ 63) (able : Preparable b n len) :
    Prepares w p b n len (valuesPrepare env traits w (some p) len) := by
  rcases prepares_or env h range able with done | ⟨⟨none, enough⟩, -⟩
  · exact done
  · unfold Preparable at able
    rw [if_pos enough] at able
    have whole : wholeSize n len % traits.size = 0 ∧ b.used ≤ wholeSize n len := wholeSize_room h
    obtain ⟨w', q, b₁, out, -⟩ := h.elements.detach granted able.2 whole.1 whole.2 able.1
    rw [out] at none
    cases none

/-- A multiple of the element size that gets a block for header and content. -/
theorem small_of_block {total : Nat} (part : total % 8 = 0) (below : total < sizeLimit)
    (room : total + 64 ≤ blockSize total) : total + 192 ≤ sizeLimit := by
  unfold blockSize at room
  unfold sizeLimit at *
  omega

theorem preparable_of (granted : Granting env) (h : Doubles traits w p b n)
    (range : -2 ^ 63 ≤ len ∧ len < 2 ^ 63)
    (done : Prepares w p b n len (valuesPrepare env traits w (some p) len)) : Preparable b n len := by
  have refused := refused_iff h range
  have used := h.used
  unfold Preparable
  by_cases enough : Enough n len
  · rw [if_pos enough]
    have open_ : ¬ Refused b.used len := by
      rw [refused]
      unfold Enough at enough
      omega
    rw [prepare_detach env h open_] at done
    have free : ¬ b.pinned := by
      intro pinned
      rw [detach_refuses env h pinned] at done
      obtain ⟨q, b', out, -⟩ := done.appended enough
      cases out
    refine ⟨?_, free⟩
    have part : wholeSize n len % 8 = 0 := by
      unfold wholeSize
      omega
    have part' : wholeSize n len % sizeLimit % 8 = 0 := by
      unfold sizeLimit
      omega
    by_cases keep : b.kept (wholeSize n len % sizeLimit)
    · rw [detach_kept h.held.cell h.sized keep] at done
      obtain ⟨below, room⟩ := fill_fits h.held.cell used enough done
      have size := h.size
      unfold longMax sizeLimit at *
      omega
    · rcases detach_renewed granted h.held h.sized keep free with
        ⟨w', b', out, cell, size, -, -⟩ | ⟨w', out, -⟩
      · rw [out] at done
        obtain ⟨below, room⟩ := fill_fits cell used enough done
        rw [h.detachSize part', Nat.mod_eq_of_lt below] at size
        by_cases empty : wholeSize n len = 0
        · rw [empty]
          decide
        · exact small_of_block part below (by omega)
      · rw [out] at done
        obtain ⟨q, b', none, -⟩ := done.appended enough
        cases none
  · rw [if_neg enough]
    by_cases refuse : Refused b.used len
    · exact .inl (refused.mp refuse).2
    · refine .inr ?_
      by_contra free
      rw [prepare_detach env h refuse] at done
      obtain ⟨result, cell⟩ := done.failed enough
      by_cases keep : b.kept (wholeSize n len % sizeLimit)
      · rw [detach_kept h.held.cell h.sized keep] at result
        unfold valuesFill at result
        simp only [h.held.cell] at result
        split at result
        · cases result
        · split at result <;> cases result
      · rcases detach_renewed granted h.held h.sized keep free with
          ⟨w', b', out, made, -, -, -⟩ | ⟨w', out, changed⟩
        · rw [out] at result
          unfold valuesFill at result
          simp only [made] at result
          split at result
          · cases result
          · split at result <;> cases result
        · rw [out] at cell
          exact changed cell

/-! ## An array without buffer -/

/-- Zeros in a new buffer, or nothing. -/
structure PreparesNew (w : World) (len : Int) (out : World × Array × Option Nat) : Prop where
  sound : out.1.fault = false
  appended : 0 ≤ len → ∃ q b', out.2 = (some q, some b'.base) ∧ out.1.cells q = some b' ∧
    b'.content = List.replicate (8 * len.natAbs) 0 ∧ b'.used ≤ b'.size ∧ b'.refs = 1
  failed : len < 0 → out = (w, none, none)

theorem prepare_new (traits : Traits) (granted : Granting env) (w : World) (zeros : 0 ≤ len) :
    ∃ w₁ b, Provided w w₁ (valuesAdd len) .none b ∧
      valuesPrepare env traits w none len =
        (poke w₁ w.mallocs { b with used := valuesAdd len, traits := some traits } 0
          (List.replicate (valuesAdd len) 0), some w.mallocs, some b.base) := by
  rcases bufferAlloc_provided env w (valuesAdd len) .none with ⟨null, -⟩ | ⟨w₁, b, alloc, block⟩
  · exact absurd null (granted _ _)
  · have made : w₁.cells w.mallocs = some b := by rw [block.cells, World.store_self]
    refine ⟨w₁, b, block, ?_⟩
    unfold valuesPrepare
    simp only [show ¬ len < 0 by omega, if_false, alloc, made]

theorem prepares_new_iff (granted : Granting env) (sound : w.fault = false) :
    PreparesNew w len (valuesPrepare env traits w none len) ↔
      len < 0 ∨ wholeSize 0 len + 192 ≤ sizeLimit := by
  by_cases zeros : 0 ≤ len
  · obtain ⟨w₁, b, block, out⟩ := prepare_new traits granted w zeros
    have add := valuesAdd_eq len
    have size := block.size
    have fault := block.fault
    rw [sound, Bool.false_or] at fault
    constructor
    · intro done
      obtain ⟨q, b', some_, made, content, -⟩ := done.appended zeros
      have safe := done.sound
      rw [out] at some_ made safe
      cases (Prod.mk.inj some_).1
      rw [poke_cells] at made
      have length := congrArg List.length content
      rw [length_bufferContent, List.length_replicate, ← Option.some.inj made] at length
      have length : valuesAdd len = 8 * len.natAbs := length
      refine .inr ?_
      have room : valuesAdd len ≤ b.size := by
        by_contra short
        unfold poke at safe
        rw [if_pos (by simp only [List.length_replicate]; omega)] at safe
        cases safe
      by_cases empty : len.natAbs = 0
      · unfold wholeSize
        rw [empty]
        decide
      · unfold wholeSize
        rw [Nat.zero_add, ← length]
        exact small_of_block (by omega) (by unfold sizeLimit; omega) (by omega)
    · intro able
      have small : valuesAdd len + 192 ≤ sizeLimit := by
        unfold wholeSize sizeLimit at *
        omega
      have length : valuesAdd len = 8 * len.natAbs := by
        unfold wholeSize sizeLimit at *
        omega
      have blocks := blockSize_eq small
      have room := le_roomFor (valuesAdd len)
      have inside : ¬ b.size < 0 + (List.replicate (valuesAdd len) (0 : Byte)).length := by
        rw [List.length_replicate]
        omega
      rw [out]
      unfold poke
      simp only [inside, if_false]
      refine ⟨fault.trans (decide_eq_false (by omega)), ?_, fun less => absurd less (by omega)⟩
      intro _
      refine ⟨w.mallocs, ({ b with used := valuesAdd len, traits := some traits } : Buffer).put 0
        (List.replicate (valuesAdd len) 0), rfl, World.store_self _ _ _, ?_, ?_, block.refs⟩
      · have back := Mem.read_write_self b.mem b.base (List.replicate (valuesAdd len) (0 : Byte))
        rw [List.length_replicate] at back
        rw [← length]
        exact back
      · simp only [Buffer.put]
        omega
  · have less : len < 0 := Int.not_le.mp zeros
    have out : valuesPrepare env traits w none len = (w, none, none) := by
      unfold valuesPrepare
      rw [if_pos less]
    rw [out]
    exact iff_of_true ⟨sound, fun zeros => absurd zeros (by omega), fun _ => rfl⟩ (.inl less)

/-- With memory for every request, numbers are added as they are asked for exactly where the
    whole content fits, and a length beyond the elements is turned down exactly where it is
    beyond the bytes, too.  Without memory the array stays as it is. -/
theorem values_prepared (granted : Granting env) (range : -2 ^ 63 ≤ len ∧ len < 2 ^ 63)
    (sound : w.fault = false) :
    (∀ p b n, Doubles traits w p b n →
      (Prepares w p b n len (valuesPrepare env traits w (some p) len) ↔ Preparable b n len)) ∧
    (PreparesNew w len (valuesPrepare env traits w none len) ↔
      len < 0 ∨ wholeSize 0 len + 192 ≤ sizeLimit) ∧
    (∀ env' p b n, Doubles traits w p b n → Preparable b n len →
      Prepares w p b n len (valuesPrepare env' traits w (some p) len) ∨
        Unprepared p b (valuesPrepare env' traits w (some p) len)) :=
  ⟨fun _ _ _ h => ⟨preparable_of granted h range, prepares_of granted h range⟩,
    prepares_new_iff granted sound,
    fun env' _ _ _ h able => (prepares_or env' h range able).imp id And.right⟩

end

def twoValues : Buffer :=
  ⟨128, 192, 16, 1, .none, some ⟨0, 8, false, none⟩, fun _ => 0, fun _ => none⟩

def twoWorld : World := { World.empty.store 0 twoValues with mallocs := 1 }

theorem twoWorld_doubles : Doubles ⟨0, 8, false, none⟩ twoWorld 0 twoValues 2 :=
  ⟨⟨rfl, Nat.one_pos, rfl, Nat.one_pos, by decide⟩, rfl, ⟨rfl, rfl, rfl⟩, rfl, by decide⟩

theorem granting_all : Granting granting := fun n size null => granting_malloc ⟨n, size, null⟩

theorem two_copied :
    Prepares twoWorld 0 twoValues 2 (-2)
      (valuesPrepare granting ⟨0, 8, false, none⟩ twoWorld (some 0) (-2)) := by
  refine ((values_prepared granting_all (by decide) rfl).1 0 twoValues 2 twoWorld_doubles).mpr ?_
  unfold Preparable
  rw [if_pos (by decide)]
  exact ⟨by decide, fun pinned => absurd pinned.1 (by decide)⟩

/-- The last three of two elements. -/
theorem three_of_two :
    ¬ Prepares twoWorld 0 twoValues 2 (-3)
      (valuesPrepare granting ⟨0, 8, false, none⟩ twoWorld (some 0) (-3)) := by
  intro done
  have able := preparable_of granting_all twoWorld_doubles (by decide) done
  unfold Preparable at able
  rw [if_neg (by decide)] at able
  rcases able with ⟨many, -⟩ | pinned
  · exact absurd many (by decide)
  · exact absurd pinned.1 (by decide)

end Mpt.Heap
