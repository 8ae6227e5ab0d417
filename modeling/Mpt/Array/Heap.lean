import Mpt.Core

/-! # Buffers on the heap

A buffer is one heap block: a header with a reference count and storage for
content behind it.  Content may be typed by traits whose functions create and
destroy elements.  What happens outside of the library is a parameter: the
answers of `malloc` and of the initializers.  A ledger keeps what no field of a
buffer tells: which elements the finalizers were called for, whether a request
for memory was turned down and whether storage was used that does not exist.
-/

namespace Mpt.Heap

/-- `struct type_traits`.  Records are compared by their address `addr`; for the
    finalizer the address of the function is kept, for the initializer only
    whether there is one. -/
structure Traits where
  addr : Nat
  size : Nat
  init : Bool
  fini : Option Nat
  deriving Repr, DecidableEq

/-- The user part of `enum BufferFlags`. -/
structure Flags where
  immutable : Bool
  noCopy : Bool
  deriving Repr, DecidableEq

/-- `struct buffer` with its header.  `base` is the address of the content.  An
    element is known by the number of the initializer call that made it: `elem`
    tells for every offset of the content which element starts there. -/
structure Buffer where
  base : Nat
  size : Nat
  used : Nat
  refs : Nat
  flags : Flags
  traits : Option Traits
  mem : Mem Byte
  elem : Mem (Option Nat)

/-- The answers of the environment. -/
structure Env where
  /-- the address that `malloc` returns to its `n`-th call, null if it fails -/
  malloc : (n len : Nat) → Nat
  /-- what is found in the storage it returns -/
  fresh : (n : Nat) → Mem Byte
  /-- whether the `n`-th call of an initializer succeeds -/
  initOk : (n : Nat) → Bool
  /-- the bytes that call writes -/
  initBytes : (n : Nat) → Mem Byte

/-- The calls of element functions so far. -/
structure Ledger where
  /-- number of initializer calls -/
  inits : Nat
  /-- the elements that finalizers were called for, `none` for a place without one -/
  finis : List (Option Nat)

/-- The heap: the buffers that exist, by the number of the call that made them. -/
structure World where
  cells : Nat → Option Buffer
  mallocs : Nat
  ledger : Ledger
  /-- a request for memory was turned down or exceeds the address space -/
  refused : Bool
  /-- storage was used that does not exist -/
  fault : Bool

namespace World

/-- Nothing is allocated. -/
def empty : World := ⟨fun _ => none, 0, ⟨0, []⟩, false, false⟩

def store (w : World) (p : Nat) (b : Buffer) : World :=
  { w with cells := fun q => if q = p then some b else w.cells q }

def free (w : World) (p : Nat) : World :=
  { w with cells := fun q => if q = p then none else w.cells q }

def refuse (w : World) : World := { w with refused := true }

def crash (w : World) : World := { w with fault := true }

@[simp] theorem store_self (w : World) (p : Nat) (b : Buffer) : (w.store p b).cells p = some b := by
  simp [store]

@[simp] theorem free_self (w : World) (p : Nat) : (w.free p).cells p = none := by
  simp [free]

theorem free_ne (w : World) {p q : Nat} (h : q ≠ p) : (w.free p).cells q = w.cells q := by
  simp [free, h]

end World

/-- The number of values of `size_t`. -/
def sizeLimit : Nat := 2 ^ 64

/-- The greatest `long`. -/
def longMax : Nat := 2 ^ 63 - 1

/-- The bytes that `_mpt_buffer_alloc` asks for: header and content, rounded up to
    multiples of `_MPT_BUFFER_PSTD`, in the arithmetic of `size_t`. -/
def blockSize (len : Nat) : Nat :=
  (((len + 64) % sizeLimit + (sizeLimit - 1)) % sizeLimit / 128 + 1) * 128 % sizeLimit

/-- `_mpt_buffer_alloc` -/
def bufferAlloc (env : Env) (w : World) (len : Nat) (flags : Flags) : World × Option Nat :=
  let n := w.mallocs
  let addr := env.malloc n (blockSize len)
  let w := if sizeLimit < len + 192 then w.refuse else w
  let w := { w with mallocs := n + 1 }
  if addr = 0 then
    (w.refuse, none)
  else
    let b : Buffer := ⟨addr + 64, blockSize len - 64, 0, 1, flags, none, env.fresh n, fun _ => none⟩
    -- the header does not fit into an empty block
    (if blockSize len < 64 then (w.store n b).crash else w.store n b, some n)

/-- The content size that an allocation of `len` bytes provides. -/
def roomFor (len : Nat) : Nat := (len + 63) / 128 * 128 + 64

theorem blockSize_eq {len : Nat} (small : len + 192 ≤ sizeLimit) :
    blockSize len = roomFor len + 64 := by
  unfold blockSize roomFor
  unfold sizeLimit at *
  omega

theorem le_roomFor (len : Nat) : len ≤ roomFor len := by
  unfold roomFor
  omega

theorem roomFor_mod (len : Nat) : roomFor len % 128 = 64 := by
  unfold roomFor
  omega

/-- What an allocation does. -/
inductive Allocated (env : Env) (w : World) (len : Nat) (flags : Flags) :
    World × Option Nat → Prop where
  | refused {w' : World} (cells : w'.cells = w.cells) (mallocs : w'.mallocs = w.mallocs + 1)
      (ledger : w'.ledger = w.ledger) (refused : w'.refused = true) :
      Allocated env w len flags (w', none)
  | made {w' : World} {b : Buffer} (cells : w'.cells = (w.store w.mallocs b).cells)
      (mallocs : w'.mallocs = w.mallocs + 1)
      (ledger : w'.ledger = w.ledger)
      (refused : w'.refused = (w.refused || decide (sizeLimit < len + 192)))
      (fault : w'.fault = (w.fault || decide (blockSize len < 64)))
      (base : 64 ≤ b.base)
      (fields : b = ⟨b.base, blockSize len - 64, 0, 1, flags, none, env.fresh w.mallocs,
        fun _ => none⟩) :
      Allocated env w len flags (w', some w.mallocs)

theorem bufferAlloc_cases (env : Env) (w : World) (len : Nat) (flags : Flags) :
    Allocated env w len flags (bufferAlloc env w len flags) := by
  unfold bufferAlloc
  by_cases large : sizeLimit < len + 192
  · simp only [if_pos large]
    by_cases null : env.malloc w.mallocs (blockSize len) = 0
    · rw [if_pos null]
      exact .refused rfl rfl rfl rfl
    · rw [if_neg null]
      by_cases header : blockSize len < 64
      · rw [if_pos header]
        exact .made rfl rfl rfl (by simp [World.refuse, World.crash, World.store, large])
          (by simp [World.crash, header]) (Nat.le_add_left _ _) rfl
      · rw [if_neg header]
        exact .made rfl rfl rfl (by simp [World.refuse, World.store, large])
          (by simp [World.refuse, World.store, header]) (Nat.le_add_left _ _) rfl
  · simp only [if_neg large]
    by_cases null : env.malloc w.mallocs (blockSize len) = 0
    · rw [if_pos null]
      exact .refused rfl rfl rfl rfl
    · rw [if_neg null]
      by_cases header : blockSize len < 64
      · rw [if_pos header]
        exact .made rfl rfl rfl (by simp [World.crash, World.store, large])
          (by simp [World.crash, header]) (Nat.le_add_left _ _) rfl
      · rw [if_neg header]
        exact .made rfl rfl rfl (by simp [World.store, large])
          (by simp [World.store, header]) (Nat.le_add_left _ _) rfl

/-- The offsets that a loop over elements of `size` bytes visits. -/
def offsets (pos stop size : Nat) : List Nat :=
  (List.range ((stop - pos + (size - 1)) / size)).map fun i => pos + i * size

/-- One initializer call for the element at `off`. -/
def construct (env : Env) (l : Ledger) (b : Buffer) (size off : Nat) : Ledger × Buffer × Bool :=
  let mem := b.mem.write (b.base + off) ((env.initBytes l.inits).read 0 size)
  let l' := { l with inits := l.inits + 1 }
  if env.initOk l.inits then
    (l', { b with mem := mem, elem := b.elem.set off (some l.inits) }, true)
  else
    (l', { b with mem := mem }, false)

/-- One finalizer call for the element at `off`. -/
def finalize (l : Ledger) (b : Buffer) (off : Nat) : Ledger × Buffer :=
  ({ l with finis := l.finis ++ [b.elem off] }, { b with elem := b.elem.set off none })

/-- A loop of finalizer calls. -/
def finalizeAll (l : Ledger) (b : Buffer) : List Nat → Ledger × Buffer
  | [] => (l, b)
  | off :: offs =>
      let (l, b) := finalize l b off
      finalizeAll l b offs

/-- A loop of default initializer calls; it ends with the first that fails, and
    returns where. -/
def initAll (env : Env) (l : Ledger) (b : Buffer) (size : Nat) :
    List Nat → Ledger × Buffer × Option Nat
  | [] => (l, b, none)
  | off :: offs =>
      match construct env l b size off with
      | (l, b, true) => initAll env l b size offs
      | (l, b, false) => (l, b, some off)

/-- The loop that creates elements from source values: where that fails the default
    value is taken.  It counts the values taken from the source, and ends where
    the default initializer fails. -/
def copyAll (env : Env) (l : Ledger) (b : Buffer) (size : Nat) (hasSource : Bool) (count : Nat) :
    List Nat → Ledger × Buffer × Nat × Option Nat
  | [] => (l, b, count, none)
  | off :: offs =>
      let (l, b, ok) := if hasSource then construct env l b size off else (l, b, false)
      if ok then
        copyAll env l b size hasSource (count + 1) offs
      else
        match construct env l b size off with
        | (l, b, true) => copyAll env l b size hasSource count offs
        | (l, b, false) => (l, b, count, some off)

namespace Buffer

/-- `get_flags`: more than one reference. -/
def shared (b : Buffer) : Bool := 1 < b.refs

/-- `memcpy`/`memset` into the content: no element is left there. -/
def put (b : Buffer) (off : Nat) (l : List Byte) : Buffer :=
  { b with
    mem := b.mem.write (b.base + off) l
    elem := b.elem.write off (List.replicate l.length none) }

/-- `memmove` in the content: elements move with their bytes. -/
def relocate (b : Buffer) (dst src n : Nat) : Buffer :=
  { b with
    mem := b.mem.move (b.base + dst) (b.base + src) n
    elem := (b.elem.write src (List.replicate n none)).write dst (b.elem.read src n) }

/-- The content that counts. -/
def content (b : Buffer) : List Byte := b.mem.read b.base b.used

end Buffer

/-- `mpt_buffer_set` -/
def bufferSet (env : Env) (l : Ledger) (b : Buffer) (srcTraits : Option Traits) (pos : Nat)
    (src : Data) : Ledger × Buffer × Except Error Nat :=
  let len := src.len
  let stop := pos + len
  if sizeLimit ≤ stop then
    (l, b, .error .badArgument)
  else if b.size < stop then
    (l, b, .error .missingBuffer)
  else
    match b.traits with
    | none =>
        if srcTraits.isSome then
          (l, b, .error .badArgument)
        else
          (l, { b.put pos src.content with used := max b.used stop }, .ok 0)
    | some traits =>
        match srcTraits with
        | none => (l, b, .error .badType)
        | some st =>
            if st.size = 0 ∨ pos % st.size ≠ 0 ∨ len % st.size ≠ 0 then
              (l, b, .error .badArgument)
            else
              -- align uninitialized data position
              let used := b.used - b.used % st.size
              if traits ≠ st ∧ (traits.fini = none ∨ traits.fini ≠ st.fini ∨
                  traits.size ≠ st.size) then
                (l, b, .error .badType)
              else
                -- terminate overlapping target data
                let (l, b) := if traits.fini.isSome then
                    finalizeAll l b (offsets pos used st.size)
                  else
                    (l, b)
                if st.init then
                  match initAll env l b st.size (offsets used pos st.size) with
                  | (l, b, some off) => (l, { b with used := off }, .error .badOperation)
                  | (l, b, none) =>
                      let hasSource := match src with
                        | .null _ => false
                        | .bytes _ => true
                      match copyAll env l b st.size hasSource 0 (offsets pos stop st.size) with
                      | (l, b, count, some off) =>
                          let b := { b with used := off }
                          let (l, b) := if traits.fini.isSome then
                              finalizeAll l b (offsets off used st.size)
                            else
                              (l, b)
                          (l, b, .ok count)
                      | (l, b, count, none) =>
                          (l, { b with used := max used stop }, .ok count)
                else
                  let b := if used < pos then b.put used (List.replicate (pos - used) 0) else b
                  (l, { b.put pos src.content with used := max used stop }, .ok (len / st.size))

/-- `mpt_buffer_cut`: the number of bytes kept. -/
def bufferCut (l : Ledger) (b : Buffer) (off len : Nat) : Ledger × Buffer × Except Error Nat :=
  if b.used < len then
    (l, b, .error .badArgument)
  else if len ≠ 0 ∧ b.used - len < off then
    (l, b, .error .missingData)
  else
    let keep := if len = 0 then off else b.used - len
    let misfit := match b.traits with
      | none => false
      | some traits => traits.size = 0 ∨ off % traits.size ≠ 0 ∨ len % traits.size ≠ 0
    if misfit then
      (l, b, .error .badArgument)
    else
      let (l, b) := match b.traits with
        | some traits =>
            if traits.fini.isSome then
              finalizeAll l b (offsets off (off + len) traits.size)
            else
              (l, b)
        | none => (l, b)
      (l, { b.relocate off (off + len) (keep - off) with used := keep }, .ok keep)

/-- `mpt_buffer_insert`: the address of the inserted bytes, which are not
    initialized. -/
def bufferInsert (env : Env) (l : Ledger) (b : Buffer) (pos len : Nat) :
    Ledger × Buffer × Option Nat :=
  let used := b.used
  let total := (max pos used + len) % sizeLimit
  let keep := used - pos
  if total = 0 then
    (l, b, some b.base)
  else if b.size < total then
    (l, b, none)
  else if b.flags.immutable then
    (l, b, none)
  else
    let misfit := match b.traits with
      | none => false
      | some traits => traits.size = 0 ∨ used % traits.size ≠ 0 ∨ pos % traits.size ≠ 0 ∨
          len % traits.size ≠ 0
    if misfit then
      (l, b, none)
    else
      let b := { b with used := total }
      let b := if keep = 0 then b else b.relocate (total - keep) pos keep
      let (l, b, used) := match b.traits with
        | some traits =>
            if traits.init then
              match initAll env l b traits.size (offsets used pos traits.size) with
              | (l, b, some off) => (l, b, off)
              | (l, b, none) => (l, b, max used pos)
            else
              (l, b, used)
        | none => (l, b, used)
      let b := if used < pos then b.put used (List.replicate (pos - used) 0) else b
      (l, b, some (b.base + pos))

/-- `mpt_refcount_raise`: the count and the value returned. -/
def refcountRaise (refs : Nat) : Nat × Nat :=
  if refs = 0 ∨ refs + 1 = sizeLimit then (refs, 0) else (refs + 1, refs + 1)

/-- `mpt_refcount_lower`: the count, and whether the value returned is zero. -/
def refcountLower (refs : Nat) : Nat × Bool :=
  if refs = 0 then (0, false) else (refs - 1, refs - 1 = 0)

/-- `_mpt_buffer_alloc_unref` -/
def bufferUnref (w : World) (p : Nat) : World :=
  match w.cells p with
  | none => w.crash
  | some b =>
      match refcountLower b.refs with
      | (refs, false) => w.store p { b with refs := refs }
      | (_, true) =>
          let (l, _) := match b.traits with
            | some traits =>
                if traits.size ≠ 0 ∧ traits.fini.isSome then
                  finalizeAll w.ledger b (offsets 0 (b.used - b.used % traits.size) traits.size)
                else
                  (w.ledger, b)
            | none => (w.ledger, b)
          { w with ledger := l }.free p

/-- `_mpt_buffer_alloc_ref`: the new count, zero if there is none. -/
def bufferRef (w : World) (p : Nat) : World × Nat :=
  match w.cells p with
  | none => (w.crash, 0)
  | some b =>
      match refcountRaise b.refs with
      | (refs, ret) => (w.store p { b with refs := refs }, ret)

/-- The bytes of the content that move to a new block of `len` bytes; elements behind
    it are finalized. -/
def shrink (l : Ledger) (b : Buffer) (len : Nat) : Ledger × Nat :=
  if len < b.used then
    match b.traits with
    | none => (l, len)
    | some traits =>
        if traits.fini.isSome then
          let add := b.used - b.used % traits.size
          ((finalizeAll l b (offsets len add traits.size)).1, len)
        else
          (l, b.used)
  else
    (l, b.used)

/-- The content of an old block in a new one. -/
def moveContent (next b : Buffer) (add : Nat) : Buffer :=
  { next with
    used := add
    mem := next.mem.write next.base (b.mem.read b.base add)
    elem := next.elem.write 0 (b.elem.read 0 add) }

/-- The size that `detach` has to provide. -/
def detachSize (traits : Option Traits) (len : Nat) : Nat :=
  match traits with
  | none => len
  | some traits =>
      if len % traits.size = 0 then len else (len + (traits.size - len % traits.size)) % sizeLimit

/-- `_mpt_buffer_alloc_detach` -/
def bufferDetach (env : Env) (w : World) (p : Nat) (len : Nat) : World × Option Nat :=
  match w.cells p with
  | none => (w.crash, none)
  | some b =>
      if b.traits.any fun traits => traits.size = 0 then
        (w, none)
      else
        let len := detachSize b.traits len
        if b.refs < 2 ∧ len ≤ b.size ∧ b.flags.immutable = false then
          (w, some p)
        else if 2 ≤ b.refs ∧ b.flags.noCopy ∧ b.used ≠ 0 then
          (w, none)
        else
          match bufferAlloc env w len { b.flags with immutable := false } with
          | (w, none) => (w, none)
          | (w, some n) =>
              match w.cells n with
              | none => (w.crash, none)
              | some next =>
                  let next := { next with traits := b.traits }
                  match refcountLower b.refs with
                  | (refs, false) =>
                      -- content copy
                      let w := w.store p { b with refs := refs }
                      match bufferSet env w.ledger next b.traits 0 (.bytes b.content) with
                      | (l, next, .error _) =>
                          (bufferUnref ({ w with ledger := l }.store n next) n, none)
                      | (l, next, .ok _) => ({ w with ledger := l }.store n next, some n)
                  | (_, true) =>
                      -- move data content
                      let (l, add) := shrink w.ledger b len
                      let w := ({ w with ledger := l }.store n (moveContent next b add)).free p
                      (if next.size < add then w.crash else w, some n)

/-- The content must not be copied, and there is a need to. -/
def Buffer.pinned (b : Buffer) : Prop := 2 ≤ b.refs ∧ b.flags.noCopy = true ∧ b.used ≠ 0

section Detach

/-! The branches of `_mpt_buffer_alloc_detach` -/

variable {env : Env} {w : World} {p : Nat} {b : Buffer} {len : Nat} (cell : w.cells p = some b)
  (sized : (b.traits.any fun traits => decide (traits.size = 0)) = false)

include cell sized

theorem detach_kept (keep : b.refs < 2 ∧ detachSize b.traits len ≤ b.size ∧
    b.flags.immutable = false) : bufferDetach env w p len = (w, some p) := by
  unfold bufferDetach
  simp only [cell, sized, Bool.false_eq_true, if_false]
  rw [if_pos keep]

variable (renew : ¬ (b.refs < 2 ∧ detachSize b.traits len ≤ b.size ∧ b.flags.immutable = false))

include renew

theorem detach_pinned (pinned : b.pinned) : bufferDetach env w p len = (w, none) := by
  unfold Buffer.pinned at pinned
  unfold bufferDetach
  simp only [cell, sized, Bool.false_eq_true, if_false]
  rw [if_neg renew, if_pos pinned]

variable (free : ¬ b.pinned) {w₁ : World}

include free

theorem detach_refused
    (alloc : bufferAlloc env w (detachSize b.traits len) { b.flags with immutable := false } =
      (w₁, none)) : bufferDetach env w p len = (w₁, none) := by
  unfold Buffer.pinned at free
  unfold bufferDetach
  simp only [cell, sized, Bool.false_eq_true, if_false]
  rw [if_neg renew, if_neg free, alloc]

variable {n : Nat} {next : Buffer}
  (alloc : bufferAlloc env w (detachSize b.traits len) { b.flags with immutable := false } =
    (w₁, some n))
  (made : w₁.cells n = some next)

include alloc made

/-- Other holders keep the old buffer. -/
theorem detach_copied {refs : Nat} (lower : refcountLower b.refs = (refs, false)) :
    bufferDetach env w p len =
      match bufferSet env w₁.ledger { next with traits := b.traits } b.traits 0
          (.bytes b.content) with
      | (l, next, .error _) =>
          (bufferUnref ({ w₁.store p { b with refs := refs } with ledger := l }.store n next) n, none)
      | (l, next, .ok _) => ({ w₁.store p { b with refs := refs } with ledger := l }.store n next,
          some n) := by
  unfold Buffer.pinned at free
  unfold bufferDetach
  simp only [cell, sized, Bool.false_eq_true, if_false]
  rw [if_neg renew, if_neg free, alloc]
  simp only [made, lower]
  rfl

theorem detach_moved {refs : Nat} (lower : refcountLower b.refs = (refs, true)) :
    bufferDetach env w p len =
      let (l, add) := shrink w₁.ledger b (detachSize b.traits len)
      let moved := moveContent { next with traits := b.traits } b add
      let w := ({ w₁ with ledger := l }.store n moved).free p
      (if next.size < add then w.crash else w, some n) := by
  unfold Buffer.pinned at free
  unfold bufferDetach
  simp only [cell, sized, Bool.false_eq_true, if_false]
  rw [if_neg renew, if_neg free, alloc]
  simp only [made, lower]

end Detach

end Mpt.Heap
