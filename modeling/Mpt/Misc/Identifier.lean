import Mpt.Core

/-! # Identifiers

An identifier keeps its bytes in its inline area, or in a block of their own when they
do not fit.  The pointer to that block is part of the inline area.
-/

namespace Mpt.Ident

/-- `struct identifier`.  The area `_val` has `_max` bytes; those from 4 to 11 are `_base`. -/
structure Identifier where
  len : Nat
  charset : Nat
  max : Nat
  val : Mem Byte

/-- The bytes of a pointer, in the order of their weight. -/
def pointerBytes (p : Nat) : (n : Nat) → List Byte
  | 0 => []
  | n + 1 => UInt8.ofNat p :: pointerBytes (p / 256) n

def pointerOf : List Byte → Nat
  | [] => 0
  | b :: bs => b.toNat + 256 * pointerOf bs

namespace Identifier

/-- `_base` -/
def base (id : Identifier) : Nat := pointerOf (id.val.read 4 8)

def setBase (id : Identifier) (p : Nat) : Identifier :=
  { id with val := id.val.write 4 (pointerBytes p 8) }

/-- Whether the bytes are in a block of their own. -/
def external (id : Identifier) : Bool := id.max < id.len

end Identifier

/-- The blocks that are allocated, by their address.  A fault is a call of `free` for an
    address that is none of them, or the use of a null pointer. -/
structure Heap where
  blocks : Nat → Option (List Byte)
  fault : Bool

namespace Heap

def alloc (h : Heap) (p : Nat) (l : List Byte) : Heap :=
  { h with blocks := fun q => if q = p then some l else h.blocks q }

def crash (h : Heap) : Heap := { h with fault := true }

/-- `free` -/
def free (h : Heap) (p : Nat) : Heap :=
  if p = 0 then
    h
  else
    match h.blocks p with
    | none => h.crash
    | some _ => { h with blocks := fun q => if q = p then none else h.blocks q }

/-- `mpt_identifier_data`, with the bytes there. -/
def data (h : Heap) (id : Identifier) : List Byte :=
  if id.external then ((h.blocks id.base).getD []).take id.len else id.val.read 0 id.len

end Heap

def strlen (s : List Byte) : Nat := (s.takeWhile fun b => b ≠ 0).length

/-- `mpt_identifier_set`.  The address is what `malloc` returns, if it is called. -/
def identifierSet (h : Heap) (id : Identifier) (name : Option (List Byte)) (len : Int) (addr : Nat) :
    Heap × Identifier × Bool :=
  -- set name data
  let len := match name with
    | some s => if len < 0 then (strlen s : Int) else len
    | none => len
  let nlen := if name.isSome then len + 1 else len
  let charset := if name.isSome then 1 else 0
  -- max length exceeded
  if len < 0 ∨ 65535 < nlen then
    (h, id, false)
  -- length exceeds reserved size
  else if (id.max : Int) < nlen then
    if addr = 0 then
      (h, id, false)
    else
      -- copy name content
      let content := match name with
        | some s => s.take len.toNat ++ [0]
        | none => List.replicate nlen.toNat 0
      let h := h.alloc addr content
      -- clear old allocation
      let h := if id.external ∧ id.base ≠ 0 then h.free id.base else h
      -- set new name content address
      let id := { id with val := id.val.write 0 (List.replicate id.max 0), len := nlen.toNat }
      (h, { id.setBase addr with charset := charset }, true)
  -- local data sufficient
  else
    let old := if id.external then id.base else 0
    let dest := if len ≠ 0 then
        match name with
        -- copied from a null pointer
        | none => none
        | some s => some ((id.val.write 0 (s.take len.toNat)).write len.toNat
            (List.replicate (id.max - len.toNat) 0))
      else
        some (id.val.write 0 (List.replicate id.max 0))
    match dest with
    | none => (h.crash, id, false)
    | some val =>
        -- clear potential old allocation
        let h := if old ≠ 0 then h.free old else h
        (h, { id with val := val, len := nlen.toNat, charset := charset }, true)

/-- `mpt_identifier_copy` from another identifier -/
def identifierCopy (h : Heap) (id from_ : Identifier) (addr : Nat) : Heap × Identifier × Bool :=
  let content := h.data from_
  if from_.len ≤ id.max then
    let id := { id with val := id.val.write 0 content }
    let (h, id) := if id.external then (h.free id.base, id.setBase 0) else (h, id)
    (h, { id with len := from_.len, charset := from_.charset }, true)
  else if addr = 0 then
    (h, id, false)
  else
    let h := h.alloc addr content
    let (h, id) := if id.external then (h.free id.base, id.setBase 0) else (h, id)
    let id := { id with val := id.val.write 0 (List.replicate 4 0) }
    (h, { id.setBase addr with len := from_.len, charset := from_.charset }, true)

/-- The loop of `mpt_identifier_compare` for a null name. -/
def zeroLoop : (i : Nat) → List Byte → Int
  | _, [] => 0
  | i, b :: bs => if b ≠ 0 then i + 1 else zeroLoop (i + 1) bs

/-- The loop of `mpt_identifier_compare` for a name. -/
def nameLoop : (i : Nat) → (base name : List Byte) → Int
  | _, [], _ => 0
  | i, b :: bs, name => if some b ≠ name.head? then i + 1 else nameLoop (i + 1) bs name.tail

/-- `mpt_identifier_compare` -/
def identifierCompare (h : Heap) (id : Identifier) (name : Option (List Byte)) (nlen : Int) : Int :=
  if name.isSome ∧ id.charset ≠ 1 then
    -3
  else if nlen < 0 ∧ name.isNone then
    -1
  else
    let nlen := match name with
      | some s => if nlen < 0 then strlen s else nlen.toNat
      | none => nlen.toNat
    if nlen = 0 ∧ id.len = 0 then
      0
    else if nlen + 1 ≠ id.len then
      -16
    else
      let base := h.data id
      match name with
      | none => zeroLoop 0 base
      | some s =>
          let ret := nameLoop 0 (base.take nlen) s
          if ret ≠ 0 then ret else if base[nlen]? ≠ some 0 then nlen else 0

/-- `memcmp` -/
def memcmp : List Byte → List Byte → Int
  | b :: bs, c :: cs => if b = c then memcmp bs cs else if b < c then -1 else 1
  | _, _ => 0

/-- `mpt_identifier_inequal` -/
def identifierInequal (h : Heap) (id cmp : Identifier) : Int :=
  if id.charset ≠ cmp.charset then
    (id.charset : Int) - cmp.charset
  else if id.len ≠ cmp.len then
    (id.len : Int) - cmp.len
  else
    memcmp (h.data id) (h.data cmp)

/-- One call, on one of several identifiers. -/
inductive Op where
  | set (i : Nat) (name : Option (List Byte)) (len : Int) (addr : Nat)
  | copy (i : Nat) (from_ : Option Nat) (addr : Nat)

/-- All identifiers and the blocks that exist. -/
structure World where
  heap : Heap
  ids : Nat → Identifier

def World.put (w : World) (i : Nat) : Heap × Identifier × Bool → World × Bool
  | (h, id, done) => (⟨h, fun j => if j = i then id else w.ids j⟩, done)

/-- A call, and whether it returned an address. -/
def Op.run (w : World) : Op → World × Bool
  | .set i name len addr => w.put i (identifierSet w.heap (w.ids i) name len addr)
  | .copy i none addr => w.put i (identifierSet w.heap (w.ids i) none 0 addr)
  | .copy i (some j) addr =>
      if i = j then (w, true) else w.put i (identifierCopy w.heap (w.ids i) (w.ids j) addr)

end Mpt.Ident
