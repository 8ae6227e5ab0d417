import Mpt.Core

/-! # The ring queue

The operations of the queue on a single allocation of `max` bytes at address
`base`: `len` bytes are in use, starting at offset `off` and continuing at the
start of the allocation behind its end.  Each function is the one of the C
library with the same branches; pointers are addresses.
-/

namespace Mpt

/-- `a - b` in the arithmetic of `size_t`. -/
def sizeSub (a b : Nat) : Nat := if b ≤ a then a - b else a + 2 ^ 64 - b

/-- A `memmove` or `memcpy` of `size` bytes. -/
structure BlockMove where
  dst : Nat
  src : Nat
  size : Nat
  deriving Repr, DecidableEq

def applyMoves (m : Mem Byte) (moves : List BlockMove) : Mem Byte :=
  moves.foldl (fun m v => m.move v.dst v.src v.size) m

/-- `struct queue` together with the storage it points to. -/
structure Queue where
  mem : Mem Byte
  base : Nat
  len : Nat
  max : Nat
  off : Nat

namespace Queue

/-- The bounds every queue operation relies on. -/
structure Valid (q : Queue) : Prop where
  off_le : q.off ≤ q.max
  len_le : q.len ≤ q.max

/-- The logical content: `len` bytes starting at `off`, modulo the capacity. -/
def content (q : Queue) : List Byte :=
  (List.range q.len).map fun i => q.mem (q.base + (q.off + i) % q.max)

/-- `MPT_queue_frag` -/
def frag (q : Queue) : Bool := q.max - q.len < q.off

/-- `mpt_queue_data`: address and size of the first contiguous part. -/
def data (q : Queue) : Nat × Nat :=
  let start := q.max - q.off
  (q.base + q.off, if start < q.len then start else q.len)

/-- `mpt_queue_empty`: start address and the two sizes of the unused space. -/
def empty (q : Queue) : Option (Nat × Nat × Nat) :=
  let space := q.max - q.len
  if space = 0 then
    none
  else if space ≤ q.off then
    -- the unused part lies before the data (and ends where the data starts)
    some (q.base + q.len - (q.max - q.off), space, 0)
  else
    some (q.base + q.off + q.len, space - q.off, q.off)

/-- The block moves of `mpt_queue_crop` behind the choice of the start segment: close
    the gap of `len` bytes at address `addr`, with `low` bytes up to the physical
    end and `high` bytes from the start of the storage. -/
def cropMoves (q : Queue) (addr low high len : Nat) : List BlockMove × Nat :=
  let post := low + high - len
  if high ≠ 0 then
    let src := q.base + len - low
    if low ≤ post then
      ([⟨addr, src, post⟩], 1)
    else
      ([⟨addr, src, low⟩, ⟨q.base, q.base + len, sizeSub post low⟩], 3)
  else if post ≠ 0 then
    ([⟨addr, addr + len, post⟩], 0)
  else
    ([], 0)

def cropMove (q : Queue) (addr low high len : Nat) : Except Error (Queue × Nat) :=
  if low + high < len then
    .error .badArgument
  else
    let (moves, ret) := q.cropMoves addr low high len
    .ok ({ q with mem := applyMoves q.mem moves, len := q.len - len }, ret)

/-- `mpt_queue_crop` -/
def crop (q : Queue) (pos len : Nat) : Except Error (Queue × Nat) :=
  let (addr, low) := q.data
  let high := q.len - low
  if pos = 0 then
    if low + high < len then
      .error .badArgument
    else if low ≤ len then
      .ok ({ q with len := q.len - len, off := len - low }, if len - low = 0 then 0 else 2)
    else
      .ok ({ q with len := q.len - len, off := q.off + len }, 0)
  else if pos < low then
    q.cropMove (addr + pos) (low - pos) high len
  else if high < pos - low then
    .error .badArgument
  else
    q.cropMove (q.base + (pos - low)) (high - (pos - low)) 0 len

/-- The segment lookup shared by `mpt_queue_set` and `mpt_queue_get`: a copy of
    the queue header that starts at `pos`, and the flag for a start behind the
    physical end. -/
def segment (q : Queue) (pos : Nat) : Except Error (Queue × Nat) :=
  if pos = 0 then
    .ok (q, 0)
  else
    match q.crop 0 pos with
    | .error _ => .error .badArgument
    | .ok (tmp, _) => .ok (tmp, if q.max - q.off < pos then 1 else 0)

/-- `mpt_queue_set`: overwrite a range of the content. -/
def setRange (q : Queue) (pos : Nat) (src : Data) : Except Error (Queue × Nat) :=
  if src.len = 0 then
    .ok (q, 0)
  else do
    let (tmp, ret) ← q.segment pos
    if tmp.len < src.len then
      .error .missingBuffer
    else
      let (addr, low) := { tmp with len := src.len }.data
      let high := src.len - low
      let m := q.mem.write addr (src.content.take low)
      .ok ({ q with mem := m.write q.base (src.content.drop low) },
        if high ≠ 0 then ret + 2 else ret)

/-- `mpt_queue_get`: copy a range of the content (with `wanted = false` for a
    null target, which only reports the layout flags). -/
def getRange (q : Queue) (pos len : Nat) (wanted : Bool) :
    Except Error (List Byte × Nat) :=
  if len = 0 then
    .ok ([], 0)
  else do
    let (tmp, ret) ← q.segment pos
    if tmp.len < len then
      .error .badArgument
    else
      let (addr, low) := { tmp with len := len }.data
      let high := len - low
      let bytes := if wanted then q.mem.read addr low ++ q.mem.read q.base high else []
      .ok (bytes, if high ≠ 0 then ret + 2 else ret)

/-- `mpt_qpost`: extend the used range at its end. -/
def post (q : Queue) (len : Nat) : Except Error (Queue × Nat) :=
  match q.empty with
  | none => .error .missingBuffer
  | some (_, low, high) =>
      if low + high < len then
        .error .missingBuffer
      else
        .ok ({ q with len := q.len + len }, (low + high - len) / len)

/-- `mpt_qpush`.  The extended range stays when storing the data fails. -/
def push (q : Queue) (src : Data) : Queue × Except Error Nat :=
  match q.post src.len with
  | .error e => (q, .error e)
  | .ok (q', _) =>
      match q'.setRange (q'.len - src.len) src with
      | .error e => (q', .error e)
      | .ok (q'', ret) => (q'', .ok ret)

/-- A count that is below zero as an `int`. -/
def overInt (count : Nat) : Bool := decide (2 ^ 31 ≤ count % 2 ^ 32)

/-- `mpt_qpre`: extend the used range at its start.  On a full queue
    `mpt_queue_empty` leaves both sizes unset, so they are arguments here. -/
def pre (q : Queue) (len : Nat) (unset : Nat × Nat) : Except Error (Queue × Nat) :=
  match q.empty with
  | none =>
      -- sizes that are not those of the queue wrap around
      let (low, high) := unset
      let total := (low + high) % 2 ^ 64
      if total < len then
        .error .missingBuffer
      else
        let off :=
          if high ≠ 0 ∧ high < len then sizeSub q.max (len - high)
          else if len < q.off then q.off - len
          else (q.off + sizeSub q.max len) % 2 ^ 64
        .ok ({ q with off := off, len := (q.len + len) % 2 ^ 64 }, (total - len) / len)
  | some (_, low, high) =>
      if low + high < len then
        .error .missingBuffer
      else
        let off :=
          if high ≠ 0 ∧ high < len then q.max - (len - high)
          else if len < q.off then q.off - len
          else q.off + (q.max - len)
        .ok ({ q with off := off, len := q.len + len }, (low + high - len) / len)

/-- `mpt_qshift`: take `len` bytes from the start.  Without a target
    (`wanted = false`) only a contiguous range can be returned. -/
def shift (q : Queue) (len : Nat) (wanted : Bool) : Option (Queue × List Byte) :=
  let (addr, low) := q.data
  let drop : Queue := match q.crop 0 len with
    | .ok (q', _) => q'
    | .error _ => q
  if len ≤ low then
    some (drop, q.mem.read addr len)
  else if !wanted then
    none
  else if q.len < len then
    none
  else
    some (drop, q.mem.read addr low ++ q.mem.read q.base (len - low))

end Queue

/-- `mpt_memswap`: exchange two ranges through a 1024 byte buffer. -/
def swapBlock (m : Mem Byte) (a b n : Nat) : Mem Byte :=
  (m.move a b n).write b (m.read a n)

def memswapParts (m : Mem Byte) (a b : Nat) : (parts : Nat) → Nat → Mem Byte
  | 0, rest => if rest = 0 then m else swapBlock m a b rest
  | parts + 1, rest => memswapParts (swapBlock m a b 1024) (a + 1024) (b + 1024) parts rest

def memswap (m : Mem Byte) (a b len : Nat) : Mem Byte :=
  memswapParts m a b (len / 1024) (len % 1024)

/-- The loop of `mpt_memrev`: exchange the `pre` bytes at `data` with the `post`
    bytes behind them.  Every round shortens one side, so `pre + post` rounds
    are enough. -/
def memrevLoop (m : Mem Byte) (data pre post : Nat) : (rounds : Nat) → Mem Byte
  | 0 => m
  | rounds + 1 =>
      if pre = 0 ∨ post = 0 then
        m
      else if pre ≤ 1024 then
        (m.move data (data + pre) post).write (data + post) (m.read data pre)
      else if post ≤ 1024 then
        (m.move (data + post) data pre).write data (m.read (data + pre) post)
      else if pre < post then
        memrevLoop (memswap m data (data + pre) pre) (data + pre) pre (post - pre) rounds
      else
        memrevLoop (memswap m (data + (pre - post)) (data + pre) post) data (pre - post) post
          rounds

/-- `mpt_memrev` -/
def memrev (m : Mem Byte) (data pre len : Nat) : Except Error (Mem Byte) :=
  if data = 0 then
    .error .missingData
  else if len < pre then
    .error .badArgument
  else
    .ok (memrevLoop m data pre (len - pre) len)

namespace Queue

/-- `mpt_memrev` as called for a queue, where the result is not looked at. -/
def rotate (m : Mem Byte) (data pre len : Nat) : Mem Byte :=
  match memrev m data pre len with
  | .ok m' => m'
  | .error _ => m

/-- The block moves of `mpt_queue_align` for data in one piece at `off`.  Where it does
    not fit behind `pos` it was split into an upper and a lower part before. -/
def placeMoves (q : Queue) (pos : Nat) : List BlockMove :=
  if pos ≤ q.max - q.len then
    [⟨q.base + pos, q.base + q.off, q.len⟩]
  else
    let pv := sizeSub pos q.off
    let rest := sizeSub q.len pv
    let high := sizeSub q.max rest
    (if q.off ≠ 0 then [⟨q.base, q.base + q.off, pv⟩] else []) ++
      if high ≠ q.off + pv then [⟨q.base + high, q.base + q.off + pv, rest⟩] else []

/-- The part of `mpt_queue_align` for data in one piece at `off`. -/
def place (q : Queue) (pos : Nat) : Queue :=
  if pos ≤ q.max - q.len then
    { q with mem := applyMoves q.mem (q.placeMoves pos), off := pos }
  else
    { q with
      mem := applyMoves (rotate q.mem (q.base + q.off) (sizeSub pos q.off) q.len)
        (q.placeMoves pos) }

/-- `mpt_queue_align` -/
def align (q : Queue) (pos : Nat) : Queue :=
  if q.max < pos then
    q
  else if q.len = 0 then
    { q with off := 0 }
  else if q.base = 0 then
    q
  else if q.frag then
    -- make both parts adjacent, then bring them into order
    let pv := q.max - q.len
    let m := if pv ≠ 0 then
        q.mem.move (q.base + q.off - pv) (q.base + q.off) (q.max - q.off) else q.mem
    let q' := { q with mem := rotate m q.base (q.off - pv) q.len, off := 0 }
    if pos = 0 then q' else q'.place pos
  else if pos = q.off then
    q
  else
    q.place pos

end Queue

end Mpt
