import Mpt.Config.Path
import Mpt.Tree.Nodes

/-! # Nodes from parser events

The position in the tree that is built is a single node.  Whether it is the section
that was opened last, or the last element of its section, follows from the previous
event.
-/

namespace Mpt.Parse

open Mpt.Tree

/-- What a parser can deliver. -/
inductive Event where
  | section_
  | option
  | optionData
  | data
  | sectEnd
  deriving Repr, DecidableEq

/-- `MPT_PARSEFLAG` -/
def Event.flags : Event → Nat
  | section_ => 1
  | option => 3
  | optionData => 7
  | data => 4
  | sectEnd => 2

/-- Has one of the bits of an operation. -/
def has (op bits : Nat) : Bool := op &&& bits ≠ 0

/-- Which of its requests for memory a new node is granted: for its value, for itself and
    for its name. -/
structure Grant where
  meta_ : Bool
  node : Bool
  ident : Bool

/-- `mpt_node_append`: the node to go on from, if there is one. -/
def nodeAppend (h : Nodes) (old : Nat) (dest : Config.Path) (val : Option (List Byte))
    (prevop currop : Nat) (grant : Grant) : Nodes × Option Nat :=
  -- no save operation
  if has currop 15 = false then
    (h, some old)
  -- one level up
  else if currop = Event.sectEnd.flags then
    -- last operation was non-empty section
    if has prevop Event.sectEnd.flags then (h, (h.node old).parent) else (h, some old)
  else
    -- new node has identifier
    let name := if has currop Event.section_.flags then dest.lastName else some []
    match name with
    | none => (h, none)
    | some name =>
        if (val.isSome ∧ grant.meta_ = false) ∨ grant.node = false ∨
            (name ≠ [] ∧ grant.ident = false) then
          (h, none)
        else
          let conf := h.size
          let h := h.new name val
          -- previous element was section
          if prevop ≠ 0 ∧ has prevop Event.sectEnd.flags = false then
            (h.gnodeInsert old conf, some conf)
          else
            (h.gnodeAdd old conf, some conf)

/-- An event with what comes with it. -/
structure Step where
  event : Event
  path : Config.Path
  val : List Byte
  grant : Grant

/-- What is passed as the value. -/
def Step.value (s : Step) : Option (List Byte) :=
  if has s.event.flags Event.data.flags then some s.val else none

/-- The tree under construction: the nodes, the position and the previous event. -/
structure Build where
  nodes : Nodes
  pos : Nat
  prev : Nat

/-- A root without content.  The parser starts as if its section was just opened. -/
def Build.start : Build := ⟨Nodes.start, 0, Event.section_.flags⟩

/-- `saveAppend`, in the loop of `mpt_parse_config` -/
def Build.save (b : Build) (s : Step) : Option Build :=
  match nodeAppend b.nodes b.pos s.path s.value b.prev s.event.flags s.grant with
  | (_, none) => none
  | (h, some next) => some ⟨h, next, s.event.flags⟩

/-- All events, unless one fails. -/
def Build.run (b : Build) : List Step → Option Build
  | [] => some b
  | s :: ss =>
      match b.save s with
      | none => none
      | some b => b.run ss

end Mpt.Parse
