import Mpt.Config.Items
import Mpt.Run

/-! # Two stores for a configuration

The global configuration is a tree of nodes, `config::root` has items in arrays of arrays.
Both keep a text as a metatype, which is made in the same way for either.
-/

namespace Mpt.Config

/-- A text value: the characters before its terminator. -/
structure Text where
  chars : List Char
  plain : '\x00' ∉ chars

/-- What was made of a text: data behind a header, or a buffer with characters. -/
inductive Meta where
  | info (text : List Char)
  | buffer (content : List Char)
  deriving Repr, DecidableEq

/-- The text that is found in a metatype. -/
def Meta.text : Meta → List Char
  | .info text => text
  | .buffer content => content.takeWhile fun c => c ≠ '\x00'

/-- The header of `_mpt_geninfo_init`. -/
def infoHeader : Nat := 4

/-- `_mpt_geninfo_size`: none where the data is too much. -/
def geninfoSize (post : Nat) : Option Nat :=
  let post := post + infoHeader + 1
  if 255 < post then
    none
  else
    let align := (post + 7) / 8 * 8
    some (if align < 255 then align else post)

/-- `metatype::basic::create`: that the data was set is not checked. -/
def basicCreate (text : Text) : Option Meta :=
  let len := text.chars.length
  (geninfoSize len).map fun post =>
    .info (if post - infoHeader ≤ len then [] else text.chars)

/-- `metatype::create` for a text -/
def metatypeCreate (text : Text) : Meta :=
  let buffer := .buffer (text.chars ++ ['\x00'])
  if text.chars.length < 255 then (basicCreate text).getD buffer else buffer

/-! ## Nodes -/

/-- `struct node` of a configuration: the nodes of a list are named. -/
structure Node (V : Type u) where
  name : Name
  value : Option V
  children : List (Node V)

variable {V : Type u}

/-- `mpt_node_query`: the last node of the path that is there, and what is left of the path. -/
def nodeQuery : (path : List Name) → List (Node V) → Option (Node V × List Name)
  | [], _ => none
  | name :: path, conf =>
      match conf.find? fun node => node.name = name with
      | none => none
      | some node => some ((nodeQuery path node.children).getD (node, path))

/-- The loop of `mpt_node_assign` for the elements that are missing. -/
def nodeCreate : (path : List Name) → V → List (Node V) → List (Node V) × Bool
  | [], _, base => (base, false)
  | name :: path, v, base =>
      -- `mpt_identifier_set`
      if nameLimit ≤ name.length then
        (base, false)
      else
        match path with
        | [] => (base ++ [⟨name, some v, []⟩], true)
        | _ :: _ =>
            let (children, done) := nodeCreate path v []
            (base ++ [⟨name, none, children⟩], done)

/-- `mpt_node_assign`: the elements that are there are followed first. -/
def nodeAssign : (path : List Name) → V → List (Node V) → List (Node V) × Bool
  | [], _, base => (base, false)
  | name :: path, v, base =>
      match base.findIdx? fun node => node.name = name with
      | none => nodeCreate (name :: path) v base
      | some i =>
          match path, base[i]? with
          | _, none => (base, false)
          | [], some node => (base.set i { node with value := some v }, true)
          | _ :: _, some node =>
              let (children, done) := nodeAssign path v node.children
              (base.set i { node with children := children }, done)

/-- `mpt_node_unlink` of the node of a path, with all below it. -/
def nodeUnlink : (path : List Name) → List (Node V) → List (Node V)
  | [], base => base
  | name :: path, base =>
      match base.findIdx? fun node => node.name = name with
      | none => base
      | some i =>
          match path with
          | [] => base.eraseIdx i
          | _ :: _ => base.modify i fun node => { node with children := nodeUnlink path node.children }

/-- `configQuery`: the value of the element, when the whole path is there. -/
def configQuery (path : List Name) (nodes : List (Node V)) : Option (Option V) :=
  match nodeQuery path nodes with
  | some (node, []) => some node.value
  | _ => none

/-- `configAssign`: next to `config::root`, `mpt_meta_new` is the one that calls
    `metatype::create`. -/
def configAssign (path : List Name) (text : Text) (nodes : List (Node Meta)) : List (Node Meta) × Bool :=
  nodeAssign path (metatypeCreate text) nodes

/-- `configRemove` -/
def configRemove (path : List Name) (nodes : List (Node V)) : List (Node V) :=
  match configQuery path nodes with
  | none => nodes
  | some _ => nodeUnlink path nodes

/-! ## Items -/

/-- `unique_array::resize` to no elements: the memory is kept. -/
def Items.clear (arr : Items V) : Items V := ⟨[], arr.room + arr.elements.length⟩

/-- `set_name` without a name: the identifier is emptied when no length is asked for, a
    length below zero is an error. -/
def Item.setNoName (nlen : Int) (item : Item V) : Item V := if nlen < 0 then item else item.unused

/-- What `config::root::remove` does to an item: the length of `set_name` is the one of its
    declaration. -/
def Item.remove (item : Item V) : Item V :=
  { (item.withItems item.items.clear).setNoName (-1) with value := none }

/-- `config::root::assign` -/
def rootAssign (path : List Name) (text : Text) (s : Items Meta × Nat) : (Items Meta × Nat) × Bool :=
  match itemReserve path s.1 s.2 with
  | (arr, next, none) => ((arr, next), false)
  | (arr, next, some _) => ((change (Item.setValue (metatypeCreate text)) path arr, next), true)

/-- `config::root::remove`: none when memory was examined that is not used. -/
def rootRemove (path : List Name) (arr : Items V) : Option (Items V) :=
  match itemQuery path arr with
  | .outside => none
  | .nothing => some arr
  | .item _ _ => some (change Item.remove path arr)

/-! ## Calls -/

/-- A path with elements, none of which is empty. -/
structure Dest where
  parts : List Name
  nonempty : parts ≠ []
  full : [] ∉ parts

inductive StoreCall where
  | assign (dest : Dest) (text : Text)
  | remove (dest : Dest)
  | query (dest : Dest)

/-- What a user of a store is told. -/
inductive StoreAnswer where
  | assigned (done : Bool)
  | removed
  | seen (found : Option (Option (List Char)))
  | outside
  deriving Repr, DecidableEq

/-- The calls on the global configuration. -/
def globalStore : Machine (List (Node Meta)) StoreCall StoreAnswer where
  step nodes call :=
    match call with
    | .assign dest text =>
        let (nodes, done) := configAssign dest.parts text nodes
        (nodes, .assigned done)
    | .remove dest => (configRemove dest.parts nodes, .removed)
    | .query dest => (nodes, .seen ((configQuery dest.parts nodes).map fun value => value.map Meta.text))

/-- The calls on `config::root`. -/
def rootStore : Machine (Items Meta × Nat) StoreCall StoreAnswer where
  step s call :=
    match call with
    | .assign dest text =>
        let (s, done) := rootAssign dest.parts text s
        (s, .assigned done)
    | .remove dest =>
        match rootRemove dest.parts s.1 with
        | none => (s, .outside)
        | some arr => ((arr, s.2), .removed)
    | .query dest =>
        (s, match itemQuery dest.parts s.1 with
          | .outside => .outside
          | .nothing => .seen none
          | .item _ value => .seen (some (value.map Meta.text)))

end Mpt.Config
