import Mpt.Array.Raw

/-! # Writing to a slice

`mpt_slice_write` has three places for new data: behind the slice, behind the slice moved
to the front of its buffer, and a new buffer.  The first two share `_fast_append`, whose
loop does not advance, which does not raise the used size and which counts bytes.
-/

namespace Mpt.Heap

/-- The bytes of a slice. -/
def sliceContent (w : World) (sl : Slice) : List Byte :=
  match sl.arr.bind w.cells with
  | none => []
  | some b => b.mem.read (b.base + sl.off) sl.len

/-- The data of all blocks, zeros without an address. -/
def blockData (nblk size : Nat) (src : Option (List Byte)) : List Byte :=
  src.getD (List.replicate (nblk * size) 0)

/-- A slice of a raw buffer, or of none. -/
def SliceValid (w : World) (sl : Slice) : Prop :=
  (sl.arr = none ∧ sl.off = 0 ∧ sl.len = 0) ∨
    ∃ p b, sl.arr = some p ∧ Raw w p b ∧ sl.off + sl.len ≤ b.used

/-- Whole blocks are added to the bytes `old`, the slice stays inside of what counts in its
    buffer, and no storage behind the buffer is used. -/
def Added (r : World × Slice × Except Error Nat) (old : List Byte) (nblk size : Nat)
    (src : Option (List Byte)) : Prop :=
  r.1.fault = false ∧ ∀ k, r.2.2 = .ok k → k ≤ nblk ∧
    sliceContent r.1 r.2.1 = old ++ (blockData nblk size src).take (k * size) ∧
    ∀ b', r.2.1.arr.bind r.1.cells = some b' →
      r.2.1.off + r.2.1.len ≤ b'.used ∧ b'.used ≤ b'.size

def Writes (env : Env) (w : World) (sl : Slice) (nblk : Nat) (src : Option (List Byte))
    (size : Nat) : Prop :=
  Added (sliceWrite env w sl nblk src size) (sliceContent w sl) nblk size src

/-- The bytes that `_fast_append` takes with space for `avail`. -/
def fastTake (nblk size avail : Nat) : Nat := if size < avail then nblk * size % sizeLimit else 0

/-- Where `mpt_slice_write` adds what it says. -/
def Writable (sl : Slice) (b : Option Buffer) (nblk size : Nat) : Prop :=
  let renew := sl.len + nblk * size + 192 ≤ sizeLimit
  match b with
  | none => renew
  | some b =>
      let pos := sl.off + sl.len
      if b.flags.immutable = false ∧ b.shared = false then
        if nblk = 0 then True
        else if size ≤ b.size - pos then
          fastTake nblk size (b.size - pos) = 0 ∨ size = 1 ∧ pos + nblk ≤ b.used
        else if sl.off ≠ 0 ∧ size ≤ b.size - pos + sl.off then
          fastTake nblk size (b.size - sl.len) = 0
        else renew
      else renew

variable {w : World} {p : Nat} {b : Buffer} {sl : Slice} {nblk size : Nat}
  {src : Option (List Byte)}

theorem length_blockData (whole : ∀ l ∈ src, l.length = nblk * size) :
    (blockData nblk size src).length = nblk * size := by
  cases src with
  | none => exact List.length_replicate
  | some l => exact whole l rfl

/-- The bytes that the code takes of the data. -/
def blockBytes (src : Option (List Byte)) (n : Nat) : List Byte :=
  match src with
  | some l => l.take n
  | none => List.replicate n 0

theorem blockBytes_eq (src : Option (List Byte)) {n : Nat} (le : n ≤ nblk * size) :
    blockBytes src n = (blockData nblk size src).take n := by
  cases src with
  | none => exact (List.take_replicate.trans (by rw [Nat.min_eq_left le, blockBytes])).symm
  | some l => rfl

theorem sliceContent_some {w : World} (sl : Slice) (arr : sl.arr = some p)
    (cell : w.cells p = some b) : sliceContent w sl = b.mem.read (b.base + sl.off) sl.len := by
  simp only [sliceContent, arr, Option.bind_some, cell]

/-- What `_fast_append` comes to. -/
theorem fastAppend_eq (w : World) (p : Nat) (b : Buffer) (sl : Slice) (nblk size : Nat)
    (src : Option (List Byte)) :
    fastAppend w p b sl nblk size src =
      (poke w p b (sl.off + sl.len)
          ((blockData nblk size src).take (fastTake nblk size (b.size - (sl.off + sl.len)))),
        { sl with len := sl.len + fastTake nblk size (b.size - (sl.off + sl.len)) },
        .ok (fastTake nblk size (b.size - (sl.off + sl.len)))) := by
  have le : fastTake nblk size (b.size - (sl.off + sl.len)) ≤ nblk * size := by
    unfold fastTake
    split
    · exact Nat.mod_le _ _
    · exact Nat.zero_le _
  unfold fastAppend
  rw [← blockBytes_eq src le]
  rfl

theorem fastAppend_added (sl : Slice) (whole : ∀ l ∈ src, l.length = nblk * size) (some : 0 < size)
    (count : nblk < sizeLimit) (sound : w.fault = false) (arr : sl.arr = Option.some p)
    (inside : sl.off + sl.len ≤ b.used) (used : b.used ≤ b.size) {old : List Byte}
    (content : b.mem.read (b.base + sl.off) sl.len = old) :
    Added (fastAppend w p b sl nblk size src) old nblk size src ↔
      fastTake nblk size (b.size - (sl.off + sl.len)) = 0 ∨
        size = 1 ∧ sl.off + sl.len + nblk ≤ b.used := by
  unfold Added
  rw [fastAppend_eq]
  generalize take_eq : fastTake nblk size (b.size - (sl.off + sl.len)) = take
  have le : take ≤ nblk * size := by
    rw [← take_eq]
    unfold fastTake
    split
    · exact Nat.mod_le _ _
    · exact Nat.zero_le _
  have length : ((blockData nblk size src).take take).length = take := by
    rw [List.length_take, length_blockData whole, Nat.min_eq_left le]
  simp only [Except.ok.injEq, forall_eq']
  constructor
  · rintro ⟨_, few, added, ends⟩
    by_cases none : take = 0
    · exact .inl none
    right
    have cell : ∃ b', (poke w p b (sl.off + sl.len) ((blockData nblk size src).take take)).cells p =
        Option.some b' ∧ b'.used = b.used := by
      unfold poke
      split <;> exact ⟨_, World.store_self _ _ _, rfl⟩
    obtain ⟨b', cell, same⟩ := cell
    have sizes := congrArg List.length added
    rw [sliceContent_some { sl with len := sl.len + take } arr cell, Mem.length_read,
      List.length_append, ← content, Mem.length_read, List.length_take,
      length_blockData whole] at sizes
    have stays := (ends b' (by simp only [arr, Option.bind_some, cell])).1
    simp only at stays sizes
    have one : size = 1 := by
      by_contra many
      have : take * 2 ≤ take * size := Nat.mul_le_mul_left _ (by omega)
      have : nblk * 2 ≤ nblk * size := Nat.mul_le_mul_left _ (by omega)
      omega
    refine ⟨one, ?_⟩
    subst one
    have : take = nblk := by
      rw [← take_eq] at none ⊢
      unfold fastTake at *
      split at none
      · rw [if_pos ‹_›, Nat.mul_one, Nat.mod_eq_of_lt count]
      · exact absurd rfl none
    omega
  · intro condition
    have fits : take * size = take ∧ take ≤ nblk ∧ sl.off + sl.len + take ≤ b.used := by
      rcases condition with rfl | ⟨rfl, room⟩
      · simp only [Nat.zero_mul, Nat.zero_le, true_and]
        omega
      · omega
    obtain ⟨whole_, count_, stays⟩ := fits
    have stored : poke w p b (sl.off + sl.len) ((blockData nblk size src).take take) =
        w.store p (b.put (sl.off + sl.len) ((blockData nblk size src).take take)) := by
      unfold poke
      rw [length, if_neg (by omega)]
    rw [stored]
    refine ⟨sound, count_, ?_, ?_⟩
    · rw [sliceContent_some { sl with len := sl.len + take } arr (World.store_self _ _ _),
        whole_, ← content]
      simp only [Buffer.put]
      have self := Mem.read_write_self b.mem (b.base + (sl.off + sl.len))
        ((blockData nblk size src).take take)
      rw [length] at self
      rw [Mem.read_append, Mem.read_write_disjoint _ _ (.inl (by omega)), Nat.add_assoc, self]
    · intro b' cell
      simp only [arr, Option.bind_some, World.store_self, Option.some.injEq] at cell
      subst cell
      exact ⟨by simp only [Buffer.put]; omega, used⟩

theorem bufferUnref_other (cell : w.cells p = some b) :
    (bufferUnref w p).fault = w.fault ∧ ∀ q, q ≠ p → (bufferUnref w p).cells q = w.cells q := by
  unfold bufferUnref
  simp only [cell]
  split
  · exact ⟨rfl, fun q other => if_neg other⟩
  · exact ⟨rfl, fun q other => World.free_ne _ other⟩

/-- Requests that do not wrap around give a buffer for some of the blocks, or none. -/
theorem allocBlocks_small (env : Env) {len : Nat} (tries : Nat) (w : World) (nblk : Nat)
    (small : len + nblk * size + 192 ≤ sizeLimit) :
    ∃ w' ret k, allocBlocks env len size tries w nblk = (w', ret, k) ∧ w'.fault = w.fault ∧
      k ≤ nblk ∧ (ret = none ∨ ∃ n b, ret = some n ∧ w.mallocs ≤ n ∧ w'.cells n = some b ∧
        (∀ q, q < w.mallocs → w'.cells q = w.cells q) ∧ len + k * size ≤ b.size) := by
  induction tries generalizing w nblk with
  | zero => exact ⟨w, none, nblk, rfl, rfl, Nat.le_refl _, .inl rfl⟩
  | succ tries ih =>
      have total : (len + nblk * size) % sizeLimit = len + nblk * size :=
        Nat.mod_eq_of_lt (by omega)
      unfold allocBlocks
      rw [total]
      rcases bufferAlloc_small env w .none (show len + nblk * size + 192 ≤ sizeLimit from small) with
        ⟨_, eq⟩ | ⟨b, eq, room, _⟩
      · rw [eq]
        simp only
        by_cases last : nblk / 2 = 0
        · rw [if_pos last]
          exact ⟨_, none, 0, rfl, rfl, Nat.zero_le _, .inl rfl⟩
        · rw [if_neg last]
          have half : nblk / 2 * size ≤ nblk * size := Nat.mul_le_mul_right _ (Nat.div_le_self _ _)
          obtain ⟨w', ret, k, eq', fault, le, result⟩ :=
            ih (({ w with mallocs := w.mallocs + 1 } : World).refuse) (nblk / 2) (by omega)
          refine ⟨w', ret, k, eq', fault, by omega, result.imp_right ?_⟩
          rintro ⟨n, b, ret, made, cell, others, room⟩
          exact ⟨n, b, ret, Nat.le_of_succ_le made, cell,
            fun q before => others q (Nat.lt_succ_of_lt before), room⟩
      · rw [eq]
        have enough := le_roomFor (len + nblk * size)
        exact ⟨_, some w.mallocs, nblk, rfl, rfl, Nat.le_refl _, .inr ⟨_, b, rfl, Nat.le_refl _,
          World.store_self _ _ _, fun q before => if_neg (Nat.ne_of_lt before), by omega⟩⟩

/-- The bytes that a new buffer takes over. -/
def sliceKept (sl : Slice) (old : Option Buffer) : List Byte :=
  match old with
  | some b => b.mem.read (b.base + sl.off) sl.len
  | none => []

/-- A slice and the buffer that it has, with its bytes. -/
structure Renewable (w : World) (sl : Slice) (old : Option Buffer) (c : List Byte) : Prop where
  cells : ∀ p, sl.arr = some p → p < w.mallocs ∧ ∃ b, w.cells p = some b
  kept : sliceKept sl old = c
  length : c.length = sl.len

variable {old : Option Buffer} {c : List Byte}

/-- The last steps of `mpt_slice_write`: the old buffer is released. -/
theorem sliceRenew_eq (src : Option (List Byte)) {env : Env} {w' : World} {n k : Nat}
    {next : Buffer} (alloc : allocBlocks env sl.len size (nblk.log2 + 1) w nblk = (w', some n, k))
    (cell : w'.cells n = some next) :
    sliceRenew env w sl old nblk size src =
      (match sl.arr with
        | some p => bufferUnref (poke w' n { next with used := sl.len + k * size % sizeLimit } 0
            (sliceKept sl old ++ blockBytes src (k * size % sizeLimit))) p
        | none => poke w' n { next with used := sl.len + k * size % sizeLimit } 0
            (sliceKept sl old ++ blockBytes src (k * size % sizeLimit)),
        ⟨some n, 0, sl.len + k * size % sizeLimit⟩, .ok k) := by
  unfold sliceRenew
  simp only [alloc, cell]
  rfl

/-- The last steps of `mpt_slice_write`, once there is a new buffer. -/
theorem sliceRenew_made (src : Option (List Byte)) {env : Env} {w' : World} {n k : Nat}
    {next : Buffer} (alloc : allocBlocks env sl.len size (nblk.log2 + 1) w nblk = (w', some n, k))
    (cell : w'.cells n = some next) (valid : Renewable w sl old c)
    (others : ∀ q, q < w.mallocs → w'.cells q = w.cells q) (made : w.mallocs ≤ n)
    (le : k * size % sizeLimit ≤ nblk * size) :
    ∃ w'', sliceRenew env w sl old nblk size src =
        (w'', ⟨some n, 0, sl.len + k * size % sizeLimit⟩, .ok k) ∧
      w''.fault = (poke w' n { next with used := sl.len + k * size % sizeLimit } 0
        (c ++ (blockData nblk size src).take (k * size % sizeLimit))).fault ∧
      w''.cells n = some (({ next with used := sl.len + k * size % sizeLimit } : Buffer).put 0
        (c ++ (blockData nblk size src).take (k * size % sizeLimit))) := by
  have poked : ∀ q, (poke w' n { next with used := sl.len + k * size % sizeLimit } 0
      (c ++ (blockData nblk size src).take (k * size % sizeLimit))).cells q =
      if q = n then some (({ next with used := sl.len + k * size % sizeLimit } : Buffer).put 0
        (c ++ (blockData nblk size src).take (k * size % sizeLimit))) else w'.cells q := by
    intro q
    unfold poke
    split <;> rfl
  rw [sliceRenew_eq src alloc cell, valid.kept, blockBytes_eq src le]
  cases arr : sl.arr with
  | none => exact ⟨_, rfl, rfl, by rw [poked, if_pos rfl]⟩
  | some p =>
      obtain ⟨before, b, found⟩ := valid.cells p arr
      have still := poked p
      rw [if_neg (by omega), others p before, found] at still
      obtain ⟨fault, rest⟩ := bufferUnref_other still
      exact ⟨_, rfl, fault, by rw [rest n (by omega), poked, if_pos rfl]⟩

/-- Without a sum that wraps around the new buffer has the bytes and the new blocks. -/
theorem sliceRenew_small (env : Env) (sound : w.fault = false) (valid : Renewable w sl old c)
    (small : sl.len + nblk * size + 192 ≤ sizeLimit)
    (whole : ∀ l ∈ src, l.length = nblk * size) :
    Added (sliceRenew env w sl old nblk size src) c nblk size src := by
  obtain ⟨w', ret, k, alloc, fault, le, rfl | ⟨n, next, rfl, made, cell, others, room⟩⟩ :=
    allocBlocks_small env (nblk.log2 + 1) w nblk small
  · have failed : sliceRenew env w sl old nblk size src = (w', sl, .error .badOperation) := by
      unfold sliceRenew
      simp only [alloc]
    rw [failed]
    exact ⟨fault.trans sound, nofun⟩
  · have part : k * size ≤ nblk * size := Nat.mul_le_mul_right _ le
    have total : k * size % sizeLimit = k * size := Nat.mod_eq_of_lt (by omega)
    have length : (c ++ (blockData nblk size src).take (k * size)).length = sl.len + k * size := by
      rw [List.length_append, valid.length, List.length_take, length_blockData whole,
        Nat.min_eq_left part]
    obtain ⟨w'', eq, fault', cell'⟩ := sliceRenew_made src alloc cell valid others made
      (by rw [total]; exact part)
    rw [total] at eq fault' cell'
    rw [eq]
    refine ⟨?_, ?_⟩
    · rw [fault']
      unfold poke
      rw [length, if_neg (by simp only; omega)]
      exact fault.trans sound
    · intro k' ok
      obtain rfl := Except.ok.inj ok
      refine ⟨le, ?_, ?_⟩
      · rw [sliceContent_some _ rfl cell']
        have self := Mem.read_write_self next.mem (next.base + 0)
          (c ++ (blockData nblk size src).take (k * size))
        rw [length] at self
        exact self
      · intro b' found
        simp only [Option.bind_some, cell', Option.some.injEq] at found
        subst found
        simp only [Buffer.put]
        omega

theorem bufferAlloc_granting (w : World) (len : Nat) (flags : Flags) :
    ∃ w' b, bufferAlloc granting w len flags = (w', some w.mallocs) ∧
      w'.cells w.mallocs = some b ∧ (∀ q, q < w.mallocs → w'.cells q = w.cells q) ∧
      w'.fault = (w.fault || decide (blockSize len < 64)) ∧ b.size = blockSize len - 64 := by
  rcases bufferAlloc_provided granting w len flags with ⟨null, _⟩ | ⟨w', b, eq, block⟩
  · exact absurd ⟨_, _, null⟩ granting_malloc
  · refine ⟨w', b, eq, by rw [block.cells, World.store_self], ?_, block.fault, block.size⟩
    intro q before
    rw [block.cells]
    exact if_neg (Nat.ne_of_lt before)

/-- A size that comes out as it went in did not wrap around with header and rounding. -/
theorem blockSize_fits {len total : Nat} (header : 64 ≤ blockSize (total % sizeLimit))
    (room : total ≤ blockSize (total % sizeLimit) - 64) (more : len ≤ total) :
    len + 192 ≤ sizeLimit := by
  unfold blockSize sizeLimit at *
  omega

/-- Otherwise storage is used that the new buffer does not have, or blocks are missing. -/
theorem sliceRenew_wraps (valid : Renewable w sl old c) (whole : ∀ l ∈ src, l.length = nblk * size)
    (added : Added (sliceRenew granting w sl old nblk size src) c nblk size src) :
    sl.len + nblk * size + 192 ≤ sizeLimit := by
  obtain ⟨w', next, alloc, cell, others, fault, room⟩ :=
    bufferAlloc_granting w ((sl.len + nblk * size) % sizeLimit) .none
  have first : allocBlocks granting sl.len size (nblk.log2 + 1) w nblk =
      (w', some w.mallocs, nblk) := by
    unfold allocBlocks
    rw [alloc]
  have le : nblk * size % sizeLimit ≤ nblk * size := Nat.mod_le _ _
  obtain ⟨w'', eq, fault', cell'⟩ := sliceRenew_made src first cell valid others
    (Nat.le_refl _) le
  rw [eq] at added
  obtain ⟨sound, result⟩ := added
  obtain ⟨_, content, _⟩ := result nblk rfl
  have sizes := congrArg List.length content
  rw [sliceContent_some _ rfl cell', Mem.length_read, List.length_append, valid.length,
    List.length_take, length_blockData whole, Nat.min_self] at sizes
  simp only at sizes
  have total : nblk * size % sizeLimit = nblk * size := by omega
  rw [total] at fault'
  have length : (c ++ (blockData nblk size src).take (nblk * size)).length =
      sl.len + nblk * size := by
    rw [List.length_append, valid.length, List.length_take, length_blockData whole, Nat.min_self]
  simp only at sound
  rw [sound] at fault'
  unfold poke at fault'
  rw [length] at fault'
  by_cases small : next.size < 0 + (sl.len + nblk * size)
  · rw [if_pos small] at fault'
    cases fault'
  · rw [if_neg small] at fault'
    have header : ¬ blockSize ((sl.len + nblk * size) % sizeLimit) < 64 := by
      intro none
      simp only [World.store] at fault'
      rw [fault, decide_eq_true none, Bool.or_true] at fault'
      cases fault'
    exact blockSize_fits (Nat.le_of_not_lt header) (by omega) (Nat.le_refl _)

theorem renew_iff (sound : w.fault = false) (valid : Renewable w sl old c)
    (whole : ∀ l ∈ src, l.length = nblk * size) :
    (∀ env, Added (sliceRenew env w sl old nblk size src) c nblk size src) ↔
      sl.len + nblk * size + 192 ≤ sizeLimit :=
  ⟨fun added => sliceRenew_wraps valid whole (added granting),
    fun small env => sliceRenew_small env sound valid small whole⟩

/-- `mpt_slice_write` to a slice with a raw buffer. -/
theorem sliceWrite_raw (env : Env) (sl : Slice) (raw : Raw w p b) (arr : sl.arr = some p)
    (inside : sl.off + sl.len ≤ b.used) (some : 0 < size) (nblk : Nat)
    (src : Option (List Byte)) :
    sliceWrite env w sl nblk src size =
      if b.flags.immutable = false ∧ b.shared = false then
        if nblk = 0 then
          (w, sl, .ok 0)
        else if size ≤ b.size - (sl.off + sl.len) then
          fastAppend w p b sl nblk size src
        else if sl.off ≠ 0 ∧ size ≤ b.size - (sl.off + sl.len) + sl.off then
          fastAppend (w.store p { b.relocate 0 sl.off sl.len with used := sl.len }) p
            { b.relocate 0 sl.off sl.len with used := sl.len } { sl with off := 0 } nblk size src
        else
          sliceRenew env w sl (Option.some b) nblk size src
      else
        sliceRenew env w sl (Option.some b) nblk size src := by
  unfold sliceWrite
  simp only [arr, Option.bind_some, raw.cell, Option.isSome_some, Option.isNone_some,
    Bool.false_eq_true, and_false, if_false, Option.any_some, raw.traits, Option.isSome_none,
    Option.map_some, Option.getD_some]
  rw [if_neg (by omega), if_neg (by omega)]
  simp only [arr, Option.bind_some, raw.cell, Option.map_some]

theorem raw_renewable (sl : Slice) (raw : Raw w p b) (arr : sl.arr = some p) :
    Renewable w sl (some b) (sliceContent w sl) where
  cells q same := by
    obtain rfl : p = q := Option.some.inj (arr.symm.trans same)
    exact ⟨raw.made, b, raw.cell⟩
  kept := (sliceContent_some sl arr raw.cell).symm
  length := by rw [sliceContent_some sl arr raw.cell, Mem.length_read]

/-- A slice moved to the front of its buffer. -/
theorem fastAppend_moved (sl : Slice) (raw : Raw w p b) (arr : sl.arr = some p)
    (inside : sl.off + sl.len ≤ b.used) (sound : w.fault = false) (some : 0 < size)
    (count : nblk < sizeLimit) (whole : ∀ l ∈ src, l.length = nblk * size) (more : nblk ≠ 0) :
    Added (fastAppend (w.store p { b.relocate 0 sl.off sl.len with used := sl.len }) p
        { b.relocate 0 sl.off sl.len with used := sl.len } { sl with off := 0 } nblk size src)
      (sliceContent w sl) nblk size src ↔ fastTake nblk size (b.size - sl.len) = 0 := by
  have used := raw.used
  have content : ({ b.relocate 0 sl.off sl.len with used := sl.len } : Buffer).mem.read
      (b.base + 0) sl.len = sliceContent w sl := by
    rw [sliceContent_some sl arr raw.cell]
    exact Mem.read_move_self _ _ _ _
  rw [fastAppend_added (w := w.store p { b.relocate 0 sl.off sl.len with used := sl.len })
    { sl with off := 0 } whole some count sound arr (by simp only; omega)
    (by simp only [Buffer.relocate]; omega) content]
  simp only [Buffer.relocate, Nat.zero_add]
  omega

/-- Whatever `malloc` answers, `mpt_slice_write` adds what it says if and only if the fast path
    takes nothing, or takes single bytes where the used size needs not to be raised, or the
    size of a new buffer does not wrap around. -/
theorem writes_iff (valid : SliceValid w sl) (sound : w.fault = false) (some : 0 < size)
    (count : nblk < sizeLimit) (whole : ∀ l ∈ src, l.length = nblk * size) :
    (∀ env, Writes env w sl nblk src size) ↔
      Writable sl (sl.arr.bind w.cells) nblk size := by
  unfold Writes Writable
  rcases valid with ⟨arr, off, len⟩ | ⟨p, b, arr, raw, inside⟩
  · have fresh : Renewable w sl none (sliceContent w sl) := by
      refine ⟨?_, ?_, ?_⟩
      · rw [arr]
        nofun
      · simp only [sliceContent, arr, Option.bind_none]
        rfl
      · simp only [sliceContent, arr, Option.bind_none, len, List.length_nil]
    have renew : ∀ env, sliceWrite env w sl nblk src size = sliceRenew env w sl none nblk size src := by
      intro env
      unfold sliceWrite
      simp only [arr, Option.bind_none, Option.isSome_none, Bool.false_eq_true, false_and, if_false,
        Option.any_none, Option.map_none, Option.getD_none]
      rw [if_neg (by omega), if_neg (by omega)]
      simp only [arr, Option.bind_none]
    simp only [renew, arr, Option.bind_none]
    exact renew_iff sound fresh whole
  · obtain ⟨a, off, len⟩ := sl
    obtain rfl : a = Option.some p := arr
    simp only at inside
    have renewed := renew_iff sound (raw_renewable ⟨Option.some p, off, len⟩ raw rfl) whole
    have fast := fastAppend_added _ whole some count sound rfl inside raw.used
      (sliceContent_some ⟨Option.some p, off, len⟩ rfl raw.cell).symm
    have moved := fastAppend_moved ⟨Option.some p, off, len⟩ raw rfl inside sound some count whole
    have shape := fun env => sliceWrite_raw env ⟨Option.some p, off, len⟩ raw rfl inside some nblk src
    simp only [shape, Option.bind_some, raw.cell]
    by_cases own : b.flags.immutable = false ∧ b.shared = false
    · simp only [if_pos own]
      by_cases none : nblk = 0
      · simp only [if_pos none, iff_true]
        intro _
        refine ⟨sound, ?_⟩
        intro k ok
        obtain rfl := Except.ok.inj ok
        refine ⟨Nat.zero_le _, by simp, ?_⟩
        intro b' found
        simp only [Option.bind_some, raw.cell, Option.some.injEq] at found
        subst found
        exact ⟨inside, raw.used⟩
      simp only [if_neg none]
      by_cases behind : size ≤ b.size - (off + len)
      · simp only [if_pos behind]
        rw [← fast]
        exact ⟨fun added => added granting, fun added _ => added⟩
      simp only [if_neg behind]
      by_cases front : off ≠ 0 ∧ size ≤ b.size - (off + len) + off
      · simp only [if_pos front]
        rw [← moved none]
        exact ⟨fun added => added granting, fun added _ => added⟩
      · simp only [if_neg front]
        exact renewed
    · simp only [if_neg own]
      exact renewed

theorem writes_new : Writes granting .empty ⟨none, 0, 0⟩ 2 (some [1, 2, 3, 4]) 2 := by
  have whole : ∀ l ∈ some ([1, 2, 3, 4] : List Byte), l.length = 2 * 2 := by
    intro l mem
    obtain rfl := Option.mem_some.mp mem
    rfl
  refine (writes_iff (.inl ⟨rfl, rfl, rfl⟩) rfl (by decide) (by decide) whole).mpr ?_ granting
  simp [Writable, World.empty, sizeLimit]

/-- One block of two bytes behind a slice with the two bytes that there are. -/
theorem bytes_counted :
    (sliceWrite granting (arrayAppend granting .empty none (.bytes [1, 2])).1 ⟨some 0, 0, 2⟩ 1
      (some [3, 4]) 2).2.2 = .ok 2 ∧
    ¬ Writes granting (arrayAppend granting .empty none (.bytes [1, 2])).1 ⟨some 0, 0, 2⟩ 1
      (some [3, 4]) 2 := by
  refine ⟨rfl, ?_⟩
  rintro ⟨_, all⟩
  exact absurd (all 2 rfl).1 (by decide)

end Mpt.Heap
