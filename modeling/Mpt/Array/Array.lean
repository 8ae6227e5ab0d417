import Mpt.Array.Heap

/-! # Arrays and slices

An array is a reference to a buffer, or null.  The operations extend, replace and
hand out content; each decides for itself whether the buffer can be used as it
is or has to be detached before.
-/

namespace Mpt.Heap

/-- `struct array` -/
abbrev Array := Option Nat

/-- The flags of a new buffer. -/
def Flags.none : Flags := ⟨false, false⟩

/-- `LONG_MAX - pos`, in the arithmetic of `size_t`. -/
def longRoom (pos : Nat) : Nat := (longMax + sizeLimit - pos) % sizeLimit

/-- A `size_t` as a signed number of the same size. -/
def toLong (n : Int) : Int := (n + 2 ^ 63) % 2 ^ 64 - 2 ^ 63

/-- Bytes written to the content of a buffer. -/
def poke (w : World) (p : Nat) (b : Buffer) (off : Nat) (l : List Byte) : World :=
  let w := w.store p (b.put off l)
  if b.size < off + l.length then w.crash else w

/-- The end of `mpt_array_append`: the data goes behind the `used` bytes. -/
def appendAt (w : World) (p used : Nat) (src : Data) : World × Array × Option Nat :=
  match w.cells p with
  | none => (w.crash, some p, none)
  | some b =>
      if src.len = 0 then
        (w, some p, some (b.base + used))
      else
        (poke w p { b with used := used + src.len } used src.content, some p, some (b.base + used))

/-- `mpt_array_append` -/
def arrayAppend (env : Env) (w : World) (arr : Array) (src : Data) : World × Array × Option Nat :=
  match arr with
  | none =>
      match bufferAlloc env w src.len .none with
      | (w, none) => (w, none, none)
      | (w, some p) => appendAt w p 0 src
  | some p =>
      match w.cells p with
      | none => (w.crash, some p, none)
      | some b =>
          if b.traits.isSome then
            (w, some p, none)
          else if b.size - b.used < src.len then
            if sizeLimit ≤ b.used + src.len then
              (w, some p, none)
            else
              match bufferDetach env w p (b.used + src.len) with
              | (w, none) => (w, some p, none)
              | (w, some p) => appendAt w p b.used src
          else
            appendAt w p b.used src

/-- `mpt_buffer_insert` on the buffer of an array. -/
def insertAt (env : Env) (w : World) (p pos len : Nat) : World × Array × Option Nat :=
  match w.cells p with
  | none => (w.crash, some p, none)
  | some b =>
      let (l, b, ret) := bufferInsert env w.ledger b pos len
      ({ w with ledger := l }.store p b, some p, ret)

/-- `mpt_array_insert` -/
def arrayInsert (env : Env) (w : World) (arr : Array) (pos len : Nat) :
    World × Array × Option Nat :=
  if longRoom pos < len then
    (w.refuse, arr, none)
  else
    match arr with
    | none =>
        let total := (len + pos) % sizeLimit
        match bufferAlloc env w total .none with
        | (w, none) => (w, none, none)
        | (w, some p) =>
            match w.cells p with
            | none => (w.crash, some p, none)
            | some b =>
                (poke w p { b with used := total } 0 (List.replicate pos 0), some p,
                  some (b.base + pos))
    | some p =>
        match w.cells p with
        | none => (w.crash, some p, none)
        | some b =>
            let used := max pos b.used
            let w := if sizeLimit ≤ used + len then w.refuse else w
            let total := (used + len) % sizeLimit
            if total ≤ b.size ∧ ¬ b.shared then
              insertAt env w p pos len
            else
              match bufferDetach env w p total with
              | (w, none) => (w, some p, none)
              | (w, some p) => insertAt env w p pos len

/-- The end of `mpt_array_set`. -/
def setAt (env : Env) (w : World) (p : Nat) (traits : Traits) (pos : Nat) (src : Data) :
    World × Array × Option Nat :=
  match w.cells p with
  | none => (w.crash, some p, none)
  | some b =>
      match bufferSet env w.ledger b (some traits) pos src with
      | (l, b, .error _) => ({ w with ledger := l }.store p b, some p, none)
      | (l, b, .ok _) => ({ w with ledger := l }.store p b, some p, some (b.base + pos))

/-- The position that `mpt_array_set` writes to. -/
def setPos (traits : Traits) (used : Nat) (off : Int) : Int :=
  if off < 0 then toLong (toLong (off * traits.size) + used) else toLong (off * traits.size)

/-- `mpt_array_set` -/
def arraySet (env : Env) (w : World) (arr : Array) (traits : Option Traits) (src : Data)
    (off : Int) : World × Array × Option Nat :=
  match traits with
  | none => (w, arr, none)
  | some traits =>
      if traits.size = 0 ∨ src.len % traits.size ≠ 0 then
        (w, arr, none)
      else
        match arr with
        | none =>
            let pos := toLong (off * traits.size)
            if pos < 0 ∨ sizeLimit ≤ pos.toNat + src.len then
              (w, none, none)
            else
              match bufferAlloc env w (pos.toNat + src.len) .none with
              | (w, none) => (w.crash, none, none)
              | (w, some p) =>
                  match w.cells p with
                  | none => (w.crash, some p, none)
                  | some b =>
                      setAt env (w.store p { b with traits := some traits }) p traits pos.toNat src
        | some p =>
            match w.cells p with
            | none => (w.crash, some p, none)
            | some b =>
                if b.traits ≠ some traits then
                  (w, some p, none)
                else
                  let pos := setPos traits b.used off
                  if pos < 0 ∨ sizeLimit ≤ pos.toNat + src.len then
                    (w, some p, none)
                  else if b.size < pos.toNat + src.len ∨ b.flags.immutable ∨ b.shared then
                    match bufferDetach env w p (pos.toNat + src.len) with
                    | (w, none) => (w, some p, none)
                    | (w, some p) => setAt env w p traits pos.toNat src
                  else
                    setAt env w p traits pos.toNat src

/-- Default initializer calls whose results are not looked at. -/
def touchAll (env : Env) (l : Ledger) (b : Buffer) (size : Nat) : List Nat → Ledger × Buffer
  | [] => (l, b)
  | off :: offs =>
      let (l, b, _) := construct env l b size off
      touchAll env l b size offs

/-- The end of `mpt_array_slice`: content up to `total` is provided. -/
def sliceAt (env : Env) (w : World) (p used off total : Nat) : World × Array × Option Nat :=
  match w.cells p with
  | none => (w.crash, some p, none)
  | some b =>
      if used < total then
        let missing := total - used
        match bufferInsert env w.ledger b used missing with
        | (l, b, none) => ({ w with ledger := l }.store p b, some p, none)
        | (l, b, some _) =>
            match b.traits with
            | some traits =>
                if traits.init then
                  let (l, b) := touchAll env l b traits.size (offsets used total traits.size)
                  ({ w with ledger := l }.store p b, some p, some (b.base + off))
                else
                  (poke { w with ledger := l } p b used (List.replicate missing 0), some p,
                    some (b.base + off))
            | none =>
                (poke { w with ledger := l } p b used (List.replicate missing 0), some p,
                  some (b.base + off))
      else
        (w, some p, some (b.base + off))

/-- `mpt_array_slice` -/
def arraySlice (env : Env) (w : World) (arr : Array) (off len : Nat) :
    World × Array × Option Nat :=
  let total := off + len
  if sizeLimit ≤ total then
    (w, arr, none)
  else
    match arr with
    | none =>
        match bufferAlloc env w total .none with
        | (w, none) => (w, none, none)
        | (w, some p) =>
            match w.cells p with
            | none => (w.crash, some p, none)
            | some b =>
                (poke w p { b with used := total } 0 (List.replicate total 0), some p,
                  some (b.base + off))
    | some p =>
        match w.cells p with
        | none => (w.crash, some p, none)
        | some b =>
            let used := b.used
            let misfit := match b.traits with
              | none => false
              | some traits => traits.size = 0 ∨ off % traits.size ≠ 0 ∨ len % traits.size ≠ 0 ∨
                  used % traits.size ≠ 0
            if misfit then
              (w, some p, none)
            else if b.size < total ∨ b.flags.immutable ∨ b.shared then
              match bufferDetach env w p (max used total) with
              | (w, none) => (w, some p, none)
              | (w, some p) => sliceAt env w p used off total
            else
              sliceAt env w p used off total

/-- `mpt_array_clone` -/
def arrayClone (w : World) (arr : Array) (from_ : Option Array) :
    World × Array × Except Error Nat :=
  let clear (w : World) (set : Array) : World × Array × Except Error Nat :=
    match arr with
    | none => (w, set, .ok (if set.isSome then 1 else 0))
    | some p => (bufferUnref w p, set, .ok (if set.isSome then 3 else 2))
  match from_ with
  | none => clear w none
  | some set =>
      if set = arr then
        (w, arr, .ok 0)
      else
        match set with
        | none => (w.crash, arr, .error .badOperation)
        | some q =>
            if (arr.bind w.cells).isSome ∧
                (w.cells q).bind Buffer.traits ≠ (arr.bind w.cells).bind Buffer.traits then
              (w, arr, .error .badType)
            else
              match bufferRef w q with
              | (w, 0) => (w, arr, .error .badOperation)
              | (w, _) => clear w (some q)

/-- `struct slice` -/
structure Slice where
  arr : Array
  off : Nat
  len : Nat
  deriving Repr, DecidableEq

/-- `_fast_append`: the number of bytes. -/
def fastAppend (w : World) (p : Nat) (b : Buffer) (sl : Slice) (nblk size : Nat)
    (src : Option (List Byte)) : World × Slice × Except Error Nat :=
  let pos := sl.off + sl.len
  -- the loop that should stop at the end of the buffer does not advance
  let take := if size < b.size - pos then nblk * size % sizeLimit else 0
  let bytes := match src with
    | some l => l.take take
    | none => List.replicate take 0
  (poke w p b pos bytes, { sl with len := sl.len + take }, .ok take)

/-- The search of `mpt_slice_write` for a number of blocks that memory is given for. -/
def allocBlocks (env : Env) (len size : Nat) : (tries : Nat) → World → Nat →
    World × Option Nat × Nat
  | 0, w, nblk => (w, none, nblk)
  | tries + 1, w, nblk =>
      match bufferAlloc env w ((len + nblk * size) % sizeLimit) .none with
      | (w, some n) => (w, some n, nblk)
      | (w, none) =>
          if nblk / 2 = 0 then (w, none, 0) else allocBlocks env len size tries w (nblk / 2)

/-- The end of `mpt_slice_write`: slice and new blocks in a buffer of their own. -/
def sliceRenew (env : Env) (w : World) (sl : Slice) (old : Option Buffer) (nblk size : Nat)
    (src : Option (List Byte)) : World × Slice × Except Error Nat :=
  match allocBlocks env sl.len size (nblk.log2 + 1) w nblk with
  | (w, none, _) => (w, sl, .error .badOperation)
  | (w, some n, nblk) =>
      match w.cells n with
      | none => (w.crash, sl, .error .badOperation)
      | some next =>
          let kept := match old with
            | some b => b.mem.read (b.base + sl.off) sl.len
            | none => []
          let total := nblk * size % sizeLimit
          let bytes := match src with
            | some l => l.take total
            | none => List.replicate total 0
          let pos := sl.len + total
          let w := poke w n { next with used := pos } 0 (kept ++ bytes)
          let w := match sl.arr with
            | some p => bufferUnref w p
            | none => w
          (w, ⟨some n, 0, pos⟩, .ok nblk)

/-- `mpt_slice_write`; `src` is the data of the blocks, null for zeros. -/
def sliceWrite (env : Env) (w : World) (sl : Slice) (nblk : Nat) (src : Option (List Byte))
    (size : Nat) : World × Slice × Except Error Nat :=
  let buf := sl.arr.bind w.cells
  if sl.arr.isSome ∧ buf.isNone then
    (w.crash, sl, .error .badOperation)
  else if buf.any fun b => b.traits.isSome then
    (w, sl, .error .badType)
  else
    let used := (buf.map Buffer.used).getD 0
    let room := (buf.map Buffer.size).getD 0
    -- fix slice area
    let sl := if used < sl.off + sl.len then
        (if used ≤ sl.off then { sl with off := used, len := 0 }
          else { sl with len := used - sl.off })
      else
        sl
    let pos := sl.off + sl.len
    let avail := room - pos
    if size = 0 then
      if nblk = 0 then
        (w, sl, .ok 0)
      else if src.isSome then
        (w, sl, .error .badArgument)
      else if nblk ≤ avail then
        (w, sl, .ok (avail / nblk))
      else
        match arraySlice env w sl.arr pos nblk with
        | (w, arr, none) => (w, { sl with arr := arr }, .error .badArgument)
        | (w, arr, some _) =>
            match arr.bind fun p => (w.cells p).map (p, ·) with
            | none => (w.crash, { sl with arr := arr }, .error .badArgument)
            | some (p, b) =>
                let (l, b, _) := bufferCut w.ledger b pos nblk
                ({ w with ledger := l }.store p b, { sl with arr := arr },
                  .ok ((avail + nblk) / nblk))
    else
      match sl.arr.bind fun p => (w.cells p).map (p, ·) with
      | none => sliceRenew env w sl none nblk size src
      | some (p, b) =>
          if b.flags.immutable = false ∧ b.shared = false then
            if nblk = 0 then
              (w, sl, .ok 0)
            else if size ≤ avail then
              fastAppend w p b sl nblk size src
            else if sl.off ≠ 0 ∧ size ≤ avail + sl.off then
              -- move data to buffer front
              let b := { b.relocate 0 sl.off sl.len with used := sl.len }
              fastAppend (w.store p b) p b { sl with off := 0 } nblk size src
            else
              sliceRenew env w sl (some b) nblk size src
          else
            sliceRenew env w sl (some b) nblk size src

end Mpt.Heap
