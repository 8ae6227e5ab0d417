import Mpt.Run

/-! # Text iterators

The iterator of a text converts what is found from its position on, and puts a terminator
behind what was consumed until it is moved.  The iterators of a character array go over its
segments.  Memory is always granted.
-/

namespace Mpt.TextIter

/-- What users do with an iterator: the current value is converted to a type. -/
inductive IterCall where
  | convert (type : Nat)
  | advance
  | reset

/-- The answer to a move. -/
inductive Move where
  | missing
  | finished
  | moved
  deriving Repr, DecidableEq

/-- The answer to a conversion or a move. -/
inductive Answer (V : Type u) where
  /-- the value was consumed before -/
  | consumed
  | missing
  | bad
  | noText
  | text (text : List Char)
  | vector (chars : List Char)
  | value (value : V)
  /-- memory behind the text was examined -/
  | outside
  | move (move : Move)
  deriving Repr, DecidableEq

/-- A pass with one type for each element, until the iterator is not moved. -/
def pass (M : Machine S IterCall (Answer V)) (types : Nat → Nat) : (fuel : Nat) → (i : Nat) → S →
    Option (List (Answer V))
  | 0, _, _ => none
  | fuel + 1, i, s =>
      let (s, value) := M.step s (.convert (types i))
      match M.step s .advance with
      | (s, .move .moved) => (pass M types fuel (i + 1) s).map (value :: ·)
      | (_, last) => some [value, last]

/-! ## The iterator of a text -/

/-- A text without terminator. -/
abbrev Text := { l : List Char // '\x00' ∉ l }

/-- `isspace` -/
def isSpace (c : Char) : Bool :=
  c = ' ' || c = '\t' || c = '\n' || c = '\x0b' || c = '\x0c' || c = '\r'

/-- Functions that take a value from the start of a text, with the length they consumed. -/
structure Conversions (V : Type u) where
  /-- `mpt_convert_string` -/
  string : (type : Nat) → List Char → Option (Nat × V)
  /-- `mpt_convert_key`, with the separators if there are any -/
  key : Option (List Char) → List Char → Option (Nat × V)

/-- The positions of `struct parseIterator` in its text, with the character that was replaced
    by a terminator. -/
structure ParseIterator where
  sep : List Char
  text : List Char
  val : Option Nat
  end_ : Option Nat
  restore : Option (Nat × Char)
  deriving DecidableEq

/-- `mpt_iterator_string`: without a text there are no separators. -/
def iteratorString (val : Option (List Char)) (sep : Option (List Char)) : ParseIterator :=
  match val with
  | none => ⟨[], [], some 0, some 0, none⟩
  | some text => ⟨sep.getD [' ', ',', ';', '/', ':'], text, some 0, some text.length, none⟩

/-- The text with the character that was replaced. -/
def ParseIterator.restored (it : ParseIterator) : List Char :=
  match it.restore with
  | none => it.text
  | some (pos, save) => it.text.set pos save

/-- The characters before the next terminator. -/
def cstring (text : List Char) : List Char := text.takeWhile fun c => c ≠ '\x00'

/-- A terminator is put at a position. -/
def ParseIterator.terminate (it : ParseIterator) (text : List Char) (pos : Nat) : ParseIterator :=
  { it with text := text.set pos '\x00', restore := some (pos, text.getD pos '\x00') }

/-- A consumed part is terminated when it is not the last one. -/
def ParseIterator.consume (it : ParseIterator) (text : List Char) (pos : Nat) : ParseIterator :=
  match it.end_ with
  | none => { it with text := text, restore := none }
  | some end_ => if end_ ≤ pos then { it with text := text, restore := none } else it.terminate text pos

/-- `MPT_type_toVector('c')` -/
def charVector : Nat := 0x43

/-- Where the first word ends. -/
def wordEnd (text : List Char) : Nat :=
  let blank := (text.takeWhile isSpace).length
  blank + ((text.drop blank).takeWhile fun c => ! isSpace c).length

variable {V : Type u}

/-- `parseConvertElement` -/
def parseConvert (conv : Conversions V) (it : ParseIterator) (type : Nat) : ParseIterator × Answer V :=
  match it.val with
  | none => (it, .consumed)
  | some val =>
      -- reset value end indicator
      let text := it.restored
      let rest := cstring (text.drop val)
      if rest = [] then
        ({ it with text := text, restore := none }, if type = 0x73 then .noText else .missing)
      else if type = 0x73 then
        ({ it with text := text, restore := none }, .text (rest.dropWhile isSpace))
      else if type = charVector then
        -- a terminator is no space
        if wordEnd rest < rest.length then
          (it.terminate text (val + wordEnd rest), .vector (rest.take (wordEnd rest)))
        else
          (it, .outside)
      else if type = 0x6b then
        match conv.key (if it.sep = [] then none else some it.sep) rest with
        | none => ({ it with text := text, restore := none }, .bad)
        | some (len, value) => (it.consume text (val + len), .value value)
      else
        match conv.string type rest with
        -- the position of the indicator is kept
        | none => ({ it with text := text }, .bad)
        | some (len, value) => (it.consume text (val + len), .value value)

/-- `parseAdvance` -/
def parseAdvance (it : ParseIterator) : ParseIterator × Move :=
  match it.end_, it.val with
  | none, _ => (it, .missing)
  | some _, none => ({ it with end_ := none }, .finished)
  | some end_, some val =>
      if end_ = val then
        ({ it with val := none, end_ := none }, .finished)
      else
        match it.restore with
        | some (pos, _) => ({ it with val := some (pos + 1), text := it.restored, restore := none }, .moved)
        | none =>
            match ((it.text.drop val).take (end_ - val)).findIdx? fun c => c = '\x00' with
            | some i => ({ it with val := some (val + i + 1) }, .moved)
            | none => ({ it with val := none }, .finished)

/-- `parseReset` -/
def parseReset (it : ParseIterator) : ParseIterator :=
  { it with text := it.restored, restore := none, val := some 0 }

/-- `parseClone` -/
def parseClone (it : ParseIterator) : ParseIterator :=
  let ptr := match it.restore with
    | some (pos, _) => some pos
    | none => it.val
  iteratorString (ptr.map fun pos => cstring (it.text.drop pos)) (some it.sep)

def parseCalls (conv : Conversions V) : Machine ParseIterator IterCall (Answer V) where
  step it call :=
    match call with
    | .convert type => parseConvert conv it type
    | .advance => ((parseAdvance it).1, .move (parseAdvance it).2)
    | .reset => (parseReset it, .move .moved)

/-! ## The iterators of an array -/

/-- The current segment of `struct metaBuffer`, and the text that was found there when the
    iterator was moved. -/
structure MetaBuffer where
  data : List Char
  off : Nat
  len : Nat
  str : Option Nat
  deriving DecidableEq

/-- What `mpt_slice_next` found. -/
inductive Segment where
  | nothing
  | text
  | chars

/-- `mpt_slice_next` for characters; none is an error. -/
def sliceNext (data : List Char) (off len : Nat) : Option (Nat × Nat × Segment) :=
  if len ≠ 0 ∧ data.length - off = len then
    some (off + len, 0, .nothing)
  else
    let next := data.drop (off + len)
    if next = [] then
      none
    else
      match next.findIdx? fun c => c = '\x00' with
      | some i => some (off + len, i + 1, .text)
      | none => some (off + len, next.length, .chars)

/-- The text that is kept for the current segment. -/
def MetaBuffer.current (m : MetaBuffer) : Option (List Char) :=
  m.str.map fun pos => cstring (m.data.drop pos)

/-- `bufferGet` with a conversion of the value: a text up to its terminator, or the characters
    of the segment. -/
def bufferGet (convert : (type : Nat) → Answer V → Answer V) (m : MetaBuffer) (type : Nat) : Answer V :=
  if m.len = 0 then
    .missing
  else
    convert type (match m.current with
      | none => .vector ((m.data.drop m.off).take m.len)
      | some text => .text text)

/-- `bufferAdvance` -/
def bufferAdvance (m : MetaBuffer) : MetaBuffer × Move :=
  match sliceNext m.data m.off m.len with
  | none => ({ m with str := none }, .missing)
  | some (off, len, .nothing) => ({ m with off := off, len := len, str := none }, .finished)
  | some (off, len, .text) => ({ m with off := off, len := len, str := some off }, .moved)
  | some (off, len, .chars) => ({ m with off := off, len := len, str := none }, .moved)

/-- `bufferReset` -/
def bufferReset (m : MetaBuffer) : MetaBuffer × Move :=
  match bufferAdvance { m with off := 0, len := 0 } with
  | (m, .missing) => (m, .finished)
  | (m, answer) => (m, answer)

/-- `bufferResetArgs`: the first argument is consumed. -/
def bufferResetArgs (m : MetaBuffer) : MetaBuffer × Move :=
  match bufferReset m with
  | (m, .moved) => bufferAdvance m
  | (m, answer) => (m, answer)

/-- `mpt_meta_buffer` and `mpt_meta_arguments` differ in how they are reset. -/
inductive BufferKind where
  | buffer
  | arguments

def BufferKind.reset : BufferKind → MetaBuffer → MetaBuffer × Move
  | .buffer => bufferReset
  | .arguments => bufferResetArgs

/-- `mpt_meta_buffer` or `mpt_meta_arguments` -/
def metaBuffer (kind : BufferKind) (data : List Char) : MetaBuffer :=
  (kind.reset ⟨data, 0, 0, none⟩).1

/-- `bufferCopy`: a new iterator gets the segment. -/
def bufferCopy (kind : BufferKind) (m : MetaBuffer) : MetaBuffer :=
  { metaBuffer kind m.data with off := m.off, len := m.len }

def bufferCalls (convert : (type : Nat) → Answer V → Answer V) (kind : BufferKind) :
    Machine MetaBuffer IterCall (Answer V) where
  step m call :=
    match call with
    | .convert type => (m, bufferGet convert m type)
    | .advance => ((bufferAdvance m).1, .move (bufferAdvance m).2)
    | .reset => ((kind.reset m).1, .move (kind.reset m).2)

end Mpt.TextIter
