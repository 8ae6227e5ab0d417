import Mpt.Core

/-! # Configuration paths

The elements of a path lie one behind the other in a buffer, each with what follows
it: a separator in text format, its length twice in binary format, once for the
element itself and once for the next one.  Behind the path there can be more
bytes, the post data.
-/

namespace Mpt.Config

/-- A private buffer on the heap: its content starts at the address 0. -/
structure Store where
  mem : Mem Byte
  size : Nat
  used : Nat

namespace Store

/-- The size of a buffer that is made for `len` bytes. -/
def allocSize (len : Nat) : Nat := ((len + 64 - 1) / 128 + 1) * 128 - 64

/-- A buffer for `len` bytes with the content of this one.  A request for memory gives
    the content of the new memory, or fails. -/
def detach (b : Store) (len : Nat) (fresh : Option (Mem Byte)) : Option Store :=
  if len ≤ b.size then
    some b
  else
    match fresh with
    | none => none
    | some m => some ⟨m.write 0 (b.mem.read 0 b.used), allocSize len, b.used⟩

/-- `mpt_array_append` of zeros, and `mpt_array_slice` of new bytes at the end. -/
def append (b : Store) (len : Nat) (fresh : Option (Mem Byte)) : Option Store :=
  match b.detach (b.used + len) fresh with
  | none => none
  | some b => some { b with mem := b.mem.write b.used (List.replicate len 0), used := b.used + len }

def set (b : Store) (pos : Nat) (x : Byte) : Store := { b with mem := b.mem.set pos x }

end Store

/-- The bytes of a path: none, those of a text elsewhere, or those of a buffer that the
    path owns (`HasArray`). -/
inductive PathBase where
  | null
  | text (mem : Mem Byte)
  | array (b : Store)

/-- `struct path` -/
structure Path where
  base : PathBase
  off : Nat
  len : Nat
  first : Byte
  keepPost : Bool
  sepBinary : Bool
  sep : Byte
  assign : Byte

namespace Path

/-- `MPT_PATH_INIT` with the choice of a format. -/
def init (sepBinary : Bool) (sep assign : Byte) : Path :=
  ⟨.null, 0, 0, 0, false, sepBinary, sep, assign⟩

/-- What is at `base`. -/
def mem (p : Path) : Mem Byte :=
  match p.base with
  | .null => fun _ => 0
  | .text m => m
  | .array b => b.mem

/-- New storage with the bytes of the path in it. -/
def newStore (p : Path) (m : Mem Byte) (len : Nat) : Store :=
  match p.base with
  | .null => ⟨m, Store.allocSize len, len⟩
  | _ => ⟨m.write 0 (p.mem.read 0 (p.off + p.len)), Store.allocSize len, len⟩

/-- `mpt_path_addchar` -/
def addchar (p : Path) (val : Byte) (fresh : Option (Mem Byte)) : Path × Except Error Nat :=
  let pos := p.off + p.len
  match p.base with
  | .array b =>
      -- can reuse last existing value
      if pos < b.used ∧ p.keepPost = false then
        ({ p with base := .array (b.set (b.used - 1) val) }, .ok 0)
      -- append in unused space
      else if b.used < b.size then
        ({ p with base := .array { b.set b.used val with used := b.used + 1 } }, .ok 1)
      else
        match b.append 1 fresh with
        | none => (p, .error .badArgument)
        | some b' => ({ p with base := .array (b'.set b.used val) }, .ok 2)
  | _ =>
      match fresh with
      | none => (p, .error .badOperation)
      | some m => ({ p with base := .array ((p.newStore m (pos + 1)).set pos val) }, .ok 3)

/-- `mpt_path_valid` -/
def valid (p : Path) : Path × Except Error Nat :=
  match p.base with
  | .array b =>
      if b.used < p.off + p.len then
        (p, .error .badValue)
      else
        let post := b.used - (p.off + p.len)
        ({ p with keepPost := if post ≠ 0 then true else p.keepPost }, .ok post)
  | _ => (p, .ok 0)

/-- The storage that `mpt_path_add` works on, with `need` bytes behind the new element, of
    which there are `post`. -/
def addStore (p : Path) (add need post : Nat) (fresh : Option (Mem Byte)) : Option Store :=
  match p.base with
  | .array b => if post < need then b.append (need - post) fresh else some b
  | _ =>
      match fresh with
      | none => none
      | some m =>
          let pre := p.off + p.len + add
          some ⟨(m.write 0 (List.replicate (pre + need) 0)).write 0 (p.mem.read 0 pre),
            Store.allocSize (pre + need), pre + need⟩

/-- The bytes behind path and new element, or the error for too few of them. -/
def addPost (p : Path) (add : Nat) : Except Error Nat :=
  match p.base with
  | .array b =>
      -- a size below that of the path wraps to a large one
      if b.used < p.off + p.len then .ok (2 ^ 64 + b.used - (p.off + p.len) - add)
      else if b.used - (p.off + p.len) < add then .error .badValue
      else .ok (b.used - (p.off + p.len) - add)
  | _ => .ok 0

/-- `path->base = data`: the flag `HasArray` does not change. -/
def rebase (p : Path) (b : Store) : PathBase :=
  match p.base with
  | .array _ => .array b
  | _ => .text b.mem

/-- `mpt_path_add` of an element whose bytes follow the path. -/
def add (p : Path) (add : Nat) (fresh : Option (Mem Byte)) : Path × Except Error Nat :=
  match p.base with
  | .null => (p, .error .missingBuffer)
  | _ =>
      let len := p.off + p.len
      match p.addPost add with
      | .error e => (p, .error e)
      | .ok post =>
          -- binary linked size separation format
          if p.sepBinary then
            if 255 < add then
              (p, .error .badValue)
            else
              match p.addStore add 2 post fresh with
              | none => (p, .error .badOperation)
              | some b =>
                  let b := if len ≠ 0 then b.set (len - 1) (.ofNat add) else b
                  let b := (b.set (len + add) (.ofNat add)).set (len + add + 1) 0
                  ({ p with
                    base := p.rebase b
                    first := if len ≠ 0 then p.first else .ofNat add
                    len := len + add + 2 - p.off
                    keepPost := false }, .ok 0)
          -- separator must not be in part
          else if p.sep ∈ p.mem.read len add then
            (p, .error .badValue)
          else
            match p.addStore add 1 post fresh with
            | none => (p, .error .badOperation)
            | some b =>
                -- change path assign to separator
                let b := if len ≠ 0 then b.set (len - 1) p.sep else b
                let b := b.set (len + add) p.assign
                ({ p with
                  base := p.rebase b
                  first := if len ≠ 0 then p.first else .ofNat add
                  len := len + add + 1 - p.off
                  keepPost := false }, .ok 0)

/-- The loop of `mpt_path_del` in text format: the length left and that of the last
    element, where `at_` is the next byte to look at. -/
def delScan (m : Mem Byte) (sep : Byte) (at_ : Nat) (part : Nat) : (len : Nat) → Nat × Nat
  | 0 => (0, part)
  | len + 1 =>
      if len = 0 then (0, part)
      else if m at_ = sep then (len, part)
      else delScan m sep (at_ - 1) (part + 1) len

/-- The end of `mpt_path_del`: `len` bytes are left of the path, and of the buffer. -/
def delTo (p : Path) (len part : Nat) : Path × Except Error Nat :=
  let p' := { p with len := len, first := if len = 0 then 0 else p.first, keepPost := false }
  match p.base with
  | .array b =>
      if b.used < len then (p, .error .badValue)
      else ({ p' with base := .array { b with used := len } }, .ok part)
  | _ => (p', .ok part)

/-- `mpt_path_del` -/
def del (p : Path) : Path × Except Error Nat :=
  if p.len = 0 then
    (p, .error .missingData)
  else if p.sepBinary then
    let part := (p.mem (p.len + p.off - 2)).toNat
    -- total length error
    if p.len < 2 ∨ p.len ≤ part then
      (p, .error .badValue)
    else
      let len := p.len - (part + 2)
      let pos := len + p.off
      -- forward/backward inconsistency
      if part ≠ (if pos ≠ 0 then p.mem (pos - 1) else p.first).toNat then
        (p, .error .badOperation)
      else
        p.delTo len part
  else
    let (len, part) := delScan p.mem p.sep (p.len + p.off - 2) 0 p.len
    p.delTo len part

/-- `mpt_path_next`: the length of the element that was the first. -/
def next (p : Path) : Path × Except Error Nat :=
  if p.len = 0 then
    (p, .error .missingData)
  else
    match p.base with
    | .null => (p, .error .badArgument)
    | _ =>
        let consume (first : Byte) (skip len : Nat) : Path × Except Error Nat :=
          ({ p with off := p.off + skip, len := p.len - skip, first := first }, .ok len)
        if p.sepBinary then
          consume (p.mem (p.off + p.first.toNat + 1)) (p.first.toNat + 2) p.first.toNat
        else if p.first ≠ 0 then
          consume 0 (p.first.toNat + 1) p.first.toNat
        else
          match (p.mem.read p.off (p.len - 1)).findIdx? (· = p.sep) with
          | some pos => consume p.first (pos + 1) pos
          | none => consume p.first p.len (p.len - 1)

/-- The loop of `mpt_path_last` in text format: where the last element starts, with what
    was found of its length. -/
def lastScan (m : Mem Byte) (sep : Byte) : (pos : Nat) → Nat → Nat × Nat
  | 0, len => (0, len)
  | pos + 1, len => if m pos = sep then (pos + 1, len) else lastScan m sep pos (len + 1)

/-- `mpt_path_last`: the path of the last element alone. -/
def last (p : Path) : Option Path :=
  match p.base with
  | .null => none
  | _ =>
      if p.len = 0 then
        none
      else if p.sepBinary then
        let len := (p.mem (p.len - 2)).toNat
        -- the byte is read as signed
        if p.len < 2 ∨ 128 ≤ len ∨ p.len < len then
          none
        else
          some { p with off := p.off + (p.len - len), first := .ofNat len, len := len + 2 }
      else
        let (pos, len) := lastScan p.mem p.sep (p.len - 1) 0
        some { p with off := p.off + pos, first := .ofNat len, len := (UInt8.ofNat len).toNat + 1 }

/-- The bytes of the last element, as far as `first` counts them. -/
def lastName (p : Path) : Option (List Byte) :=
  p.last.map fun p => p.mem.read p.off p.first.toNat

/-- `mpt_path_invalidate` -/
def invalidate (p : Path) : Path × Except Error Nat :=
  match p.base with
  | .null => (p, if p.off + p.len ≠ 0 then .error .badValue else .ok 0)
  | .text _ => (p, .ok 0)
  | .array b =>
      if b.used < p.off + p.len then
        (p, .error .badValue)
      else if p.off + p.len = b.used then
        ({ p with keepPost := false }, .ok 0)
      else
        ({ p with
          base := .array { b.set (p.off + p.len) 0 with used := p.off + p.len }
          keepPost := false }, .ok 1)

end Path

end Mpt.Config
