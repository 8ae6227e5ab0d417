import Mpt.Core

/-! # The COBS block format

An encoded message is a sequence of blocks, each a code byte followed by
non-zero data, and a last block that the delimiter ends.  A block stands for its
data and the zeros that its code implies.  This is the format that encoder and
decoder share; how much of it fits into a buffer is no concern here.
-/

namespace Mpt.Cobs

/-- A member of the COBS family: the code of a block of maximal size
    (`MPT_COBS_MAXLEN`), and whether larger codes mark a block that two zeros
    follow (zero pair elimination). -/
structure Variant where
  maxlen : Nat
  pairs : Bool
  short_lt : 32 < maxlen
  maxlen_le : maxlen ≤ 255
  pair_le : pairs = true → maxlen + 32 ≤ 255

namespace Variant

/-- Regular COBS. -/
def regular : Variant := ⟨0xff, false, by decide, by decide, by decide⟩

/-- COBS with zero pair elimination. -/
def zpe : Variant := ⟨0xdf, true, by decide, by decide, by decide⟩

end Variant

/-- What follows the data of a block. -/
inductive Ending where
  /-- a single zero -/
  | zero
  /-- nothing, for a block of maximal size -/
  | full
  /-- two zeros -/
  | pair
  deriving Repr, DecidableEq

structure Block where
  data : List Byte
  ending : Ending
  deriving Repr, DecidableEq

namespace Block

/-- The first byte of the encoded block. -/
def code (v : Variant) (b : Block) : Nat :=
  match b.ending with
  | .pair => b.data.length + 1 + v.maxlen
  | _ => b.data.length + 1

def bytes (v : Variant) (b : Block) : List Byte := .ofNat (b.code v) :: b.data

/-- The decoded bytes. -/
def payload (b : Block) : List Byte :=
  match b.ending with
  | .zero => b.data ++ [0]
  | .full => b.data
  | .pair => b.data ++ [0, 0]

/-- A block that the encoder may write. -/
structure Ok (v : Variant) (b : Block) : Prop where
  nonzero : (0 : Byte) ∉ b.data
  size : match b.ending with
    | .zero => b.data.length + 1 < v.maxlen
    | .full => b.data.length + 1 = v.maxlen
    | .pair => v.pairs = true ∧ 1 ≤ b.data.length ∧ b.data.length < 31

@[simp] theorem length_bytes (v : Variant) (b : Block) :
    (b.bytes v).length = b.data.length + 1 := by
  simp [bytes]

theorem Ok.code_pos {v : Variant} {b : Block} (_ : b.Ok v) : 0 < b.code v := by
  unfold code
  split <;> omega

theorem Ok.code_lt {v : Variant} {b : Block} (h : b.Ok v) : b.code v < 256 := by
  obtain ⟨_, size⟩ := h
  have low := v.maxlen_le
  unfold code
  cases e : b.ending with
  | zero =>
      simp only [e] at size ⊢
      omega
  | full =>
      simp only [e] at size ⊢
      omega
  | pair =>
      simp only [e] at size ⊢
      have := v.pair_le size.1
      omega

end Block

/-- The encoded form of finished blocks. -/
def encoded (v : Variant) (bs : List Block) : List Byte := bs.flatMap (Block.bytes v)

/-- The bytes that finished blocks stand for. -/
def decoded (bs : List Block) : List Byte := bs.flatMap Block.payload

@[simp] theorem encoded_nil (v : Variant) : encoded v [] = [] := rfl

@[simp] theorem encoded_cons (v : Variant) (b : Block) (bs : List Block) :
    encoded v (b :: bs) = b.bytes v ++ encoded v bs := rfl

@[simp] theorem encoded_append (v : Variant) (bs bs' : List Block) :
    encoded v (bs ++ bs') = encoded v bs ++ encoded v bs' := by
  simp [encoded]

@[simp] theorem decoded_nil : decoded [] = [] := rfl

@[simp] theorem decoded_cons (b : Block) (bs : List Block) :
    decoded (b :: bs) = b.payload ++ decoded bs := rfl

@[simp] theorem decoded_append (bs bs' : List Block) :
    decoded (bs ++ bs') = decoded bs ++ decoded bs' := by
  simp [decoded]

/-- The block in progress: its code so far and its data. -/
def opened (data : List Byte) : List Byte := .ofNat (data.length + 1) :: data

@[simp] theorem length_opened (data : List Byte) : (opened data).length = data.length + 1 := by
  simp [opened]

/-- A zero behind `size` bytes of data is the first of a pair that one code can
    express, when `next` follows. -/
def Variant.Paired (v : Variant) (size : Nat) (next : Byte) : Prop :=
  v.pairs = true ∧ 1 ≤ size ∧ size < 31 ∧ next = 0

instance (v : Variant) (size : Nat) (next : Byte) : Decidable (v.Paired size next) :=
  inferInstanceAs (Decidable (_ ∧ _))

/-- Put a finished block before a split. -/
def addBlock (b : Block) (s : List Block × List Byte) : List Block × List Byte :=
  (b :: s.1, s.2)

/-- Split a message into blocks, continuing a block with the data `o`.  The
    result is the list of finished blocks and the data of the block still open. -/
def split (v : Variant) (o : List Byte) : List Byte → List Block × List Byte
  | [] => ([], o)
  | c :: src =>
      if c = 0 then
        match src with
        | [] => addBlock ⟨o, .zero⟩ ([], [])
        | next :: rest =>
            if v.Paired o.length next then
              addBlock ⟨o, .pair⟩ (split v [] rest)
            else
              addBlock ⟨o, .zero⟩ (split v [] (next :: rest))
      else if o.length + 2 = v.maxlen then
        addBlock ⟨o ++ [c], .full⟩ (split v [] src)
      else
        split v (o ++ [c]) src

theorem split_full {v : Variant} {o : List Byte} {c : Byte} (data : c ≠ 0)
    (full : o.length + 2 = v.maxlen) (src : List Byte) :
    split v o (c :: src) = addBlock ⟨o ++ [c], .full⟩ (split v [] src) := by
  cases src <;> simp [split, data, full]

theorem split_data {v : Variant} {o : List Byte} {c : Byte} (data : c ≠ 0)
    (room : o.length + 2 ≠ v.maxlen) (src : List Byte) :
    split v o (c :: src) = split v (o ++ [c]) src := by
  cases src <;> simp [split, data, room]

/-- The last byte of an open block can take the place of its code. -/
def Inline (v : Variant) (o : List Byte) : Prop :=
  ∃ e, o.getLast? = some e ∧ o.length + 1 < e.toNat ∧ e.toNat ≤ v.maxlen

instance (v : Variant) (o : List Byte) : Decidable (Inline v o) :=
  match h : o.getLast? with
  | none => .isFalse (by rintro ⟨e, eq, _⟩; simp_all)
  | some e =>
      if size : o.length + 1 < e.toNat ∧ e.toNat ≤ v.maxlen then
        .isTrue ⟨e, h, size⟩
      else
        .isFalse (by
          rintro ⟨e', eq, size'⟩
          obtain rfl := Option.some.inj (h.symm.trans eq)
          exact size size')

/-- The encoded form of the last block of a message, with or without the tail
    inline extension (COBS/R). -/
def closed (v : Variant) (tail : Bool) (o : List Byte) : List Byte :=
  if tail = true ∧ Inline v o then (o.getLast?.getD 0) :: o.dropLast else opened o

/-- The encoding of a whole message. -/
def reference (v : Variant) (tail : Bool) (msg : List Byte) : List Byte :=
  encoded v (split v [] msg).1 ++ closed v tail (split v [] msg).2 ++ [0]

/-- The size of a split in its encoded form. -/
def splitSize (v : Variant) (s : List Block × List Byte) : Nat :=
  (encoded v s.1).length + (opened s.2).length

/-- The block in progress is short enough to be continued. -/
structure Short (v : Variant) (o : List Byte) : Prop where
  nonzero : (0 : Byte) ∉ o
  size : o.length + 1 < v.maxlen

theorem short_nil (v : Variant) : Short v [] :=
  ⟨by simp, by have := v.short_lt; simp; omega⟩

theorem Short.grow {v : Variant} {o : List Byte} (h : Short v o) {c : Byte} (data : c ≠ 0)
    (room : o.length + 2 ≠ v.maxlen) : Short v (o ++ [c]) := by
  obtain ⟨nonzero, size⟩ := h
  refine ⟨?_, by simp; omega⟩
  simp only [List.mem_append, List.mem_singleton, not_or]
  exact ⟨nonzero, fun e => data e.symm⟩

/-- Splitting loses nothing. -/
theorem decoded_split (v : Variant) (o src : List Byte) :
    decoded (split v o src).1 ++ (split v o src).2 = o ++ src := by
  fun_induction split v o src with
  | case1 o => simp
  | case2 o => simp [addBlock, Block.payload]
  | case3 o next rest paired ih =>
      obtain ⟨_, _, _, rfl⟩ := paired
      simp_all [addBlock, Block.payload]
  | case4 o next rest _ ih => simp_all [addBlock, Block.payload]
  | case5 o c src _ _ ih => simp_all [addBlock, Block.payload]
  | case6 o c src _ _ ih => simp_all

/-- Every block of a split is well formed, and so is the open one. -/
theorem split_ok (v : Variant) (o src : List Byte) (short : Short v o) :
    (∀ b ∈ (split v o src).1, b.Ok v) ∧ Short v (split v o src).2 := by
  fun_induction split v o src with
  | case1 o => exact ⟨by simp, short⟩
  | case2 o =>
      refine ⟨?_, short_nil v⟩
      simpa [addBlock] using ⟨short.nonzero, short.size⟩
  | case3 o next rest paired ih =>
      obtain ⟨blocks, rest⟩ := ih (short_nil v)
      obtain ⟨pairs, low, high, _⟩ := paired
      refine ⟨?_, rest⟩
      simpa [addBlock] using ⟨⟨short.nonzero, pairs, low, high⟩, blocks⟩
  | case4 o next rest _ ih =>
      obtain ⟨blocks, rest⟩ := ih (short_nil v)
      refine ⟨?_, rest⟩
      simpa [addBlock] using ⟨⟨short.nonzero, short.size⟩, blocks⟩
  | case5 o c src data full ih =>
      obtain ⟨blocks, rest⟩ := ih (short_nil v)
      refine ⟨?_, rest⟩
      have last : (⟨o ++ [c], .full⟩ : Block).Ok v := by
        refine ⟨?_, by simpa using full⟩
        simp only [List.mem_append, List.mem_singleton, not_or]
        exact ⟨short.nonzero, fun e => data e.symm⟩
      simpa [addBlock] using ⟨last, blocks⟩
  | case6 o c src data room ih => exact ih (short.grow data room)

/-- Without pair codes a split can be made in two parts. -/
theorem split_append {v : Variant} (single : v.pairs = false) (o p q : List Byte) :
    split v o (p ++ q) =
      ((split v o p).1 ++ (split v (split v o p).2 q).1, (split v (split v o p).2 q).2) := by
  fun_induction split v o p with
  | case1 o => rfl
  | case2 o =>
      cases q with
      | nil => rfl
      | cons next rest => simp [split, addBlock, Variant.Paired, single]
  | case3 o next rest paired ih =>
      obtain ⟨pairs, _⟩ := paired
      simp [single] at pairs
  | case4 o next rest unpaired ih =>
      rw [List.cons_append, List.cons_append, split, if_pos rfl]
      simp only [unpaired, if_false]
      rw [← List.cons_append, ih]
      rfl
  | case5 o c src data full ih =>
      rw [List.cons_append, split_full data full, ih]
      rfl
  | case6 o c src data room ih =>
      rw [List.cons_append, split_data data room, ih]

end Mpt.Cobs
