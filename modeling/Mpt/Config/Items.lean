import Mpt.Core

/-! # Configuration items

Items are kept in arrays of arrays.  An item without name is unused; its slot is taken
again for a new one.  The names of the items are their identifiers, a path is what
`mpt_path_next` takes out of it one by one, and memory is always granted.
-/

namespace Mpt.Config

/-- A part of a path. -/
abbrev Name := List Char

/-- `struct config_item`, with the array of its elements: those in use and the number of
    others that its memory has room for.  Items are told apart by the number they get when
    they are made. -/
structure Item (V : Type u) where
  name : Option Name
  value : Option V
  serial : Nat
  elements : List (Item V)
  room : Nat

/-- The used elements of an array and the room behind them. -/
structure Items (V : Type u) where
  elements : List (Item V)
  room : Nat

variable {V : Type u}

def Item.items (item : Item V) : Items V := ⟨item.elements, item.room⟩

/-- The array of an item is replaced. -/
def Item.withItems (item : Item V) (arr : Items V) : Item V :=
  { item with elements := arr.elements, room := arr.room }

/-- How many items an allocation of this many bytes has space for, with its header and in
    parts of 128 bytes. -/
def capacity (count : Nat) : Nat := (((64 + 32 * count - 1) / 128 + 1) * 128 - 64) / 32

/-- `mpt_array_insert` behind the used elements. -/
def Items.insert (arr : Items V) (item : Item V) : Items V :=
  ⟨arr.elements ++ [item],
    if arr.room = 0 then capacity (arr.elements.length + 1) - (arr.elements.length + 1)
    else arr.room - 1⟩

/-- `mpt_buffer_cut` of the first elements of the array; nothing is cut when it has less. -/
def Items.cut (arr : Items V) (count : Nat) : Items V :=
  if arr.elements.length < count then arr
  else ⟨arr.elements.drop count, arr.room + count⟩

/-- The longest name of an identifier. -/
def nameLimit : Nat := 2 ^ 16 - 1

/-- The slot for a new item: the first one that is unused, or a new one.  Of an unused one
    the value is released, and as many elements are cut as the array has that it is in. -/
def Items.slot (arr : Items V) : Items V × Nat :=
  match arr.elements.findIdx? fun item => item.name = none with
  | some i =>
      (⟨arr.elements.modify i fun item =>
          { item.withItems (item.items.cut arr.elements.length) with value := none }, arr.room⟩, i)
  | none => (arr.insert ⟨none, none, 0, [], 0⟩, arr.elements.length)

/-- `mpt_config_item_reserve`, with the number for the next new item; the item that is
    returned is told by its number. -/
def itemReserve : (path : List Name) → Items V → (next : Nat) → Items V × Nat × Option Nat
  | [], arr, next => (arr, next, none)
  | name :: path, arr, next =>
      match arr.elements.findIdx? fun item => item.name = some name with
      | some i =>
          match path, arr.elements[i]? with
          | [], item => (arr, next, item.map Item.serial)
          | _ :: _, none => (arr, next, none)
          | _ :: _, some item =>
              let (sub, next, found) := itemReserve path item.items next
              (⟨arr.elements.set i (item.withItems sub), arr.room⟩, next, found)
      | none =>
          let (arr, i) := arr.slot
          if nameLimit ≤ name.length then
            (arr, next, none)
          else
            match path, arr.elements[i]? with
            | _, none => (arr, next, none)
            | [], some item =>
                (⟨arr.elements.set i { item with name := some name, serial := next }, arr.room⟩, next + 1,
                  some next)
            | _ :: _, some item =>
                let item := { item with name := some name, serial := next }
                let (sub, next, found) := itemReserve path item.items (next + 1)
                (⟨arr.elements.set i (item.withItems sub), arr.room⟩, next, found)

/-- What a query finds. -/
inductive Seen (V : Type u) where
  | item (serial : Nat) (value : Option V)
  | nothing
  /-- memory behind the used elements was examined -/
  | outside
  deriving Repr, DecidableEq

/-- `mpt_config_item_query`: it goes over all the memory of an array. -/
def itemQuery : (path : List Name) → Items V → Seen V
  | [], _ => .nothing
  | name :: path, arr =>
      match arr.elements.find? fun item => item.name = some name with
      | some item =>
          match path with
          | [] => .item item.serial item.value
          | _ :: _ => itemQuery path item.items
      | none => if arr.room = 0 then .nothing else .outside

/-- The item of a path is changed by its user. -/
def change (f : Item V → Item V) : (path : List Name) → Items V → Items V
  | [], arr => arr
  | name :: path, arr =>
      match arr.elements.findIdx? fun item => item.name = some name with
      | none => arr
      | some i =>
          ⟨arr.elements.modify i fun item =>
            match path with
            | [] => f item
            | _ :: _ => item.withItems (change f path item.items), arr.room⟩

/-- The identifier is emptied. -/
def Item.unused (item : Item V) : Item V := { item with name := none }

def Item.setValue (v : V) (item : Item V) : Item V := { item with value := some v }

end Mpt.Config
