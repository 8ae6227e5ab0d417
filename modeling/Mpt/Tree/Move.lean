import Mpt.Tree.Nodes

/-! # Moving and clearing lists of nodes

`mpt_node_move` gives the nodes of a list to another one, where they have no
counterpart; `mpt_node_clear` destroys the nodes below a node.
-/

namespace Mpt.Tree

namespace Nodes

/-- The loop of `mpt_node_locate` for the first match from `curr` on. -/
def locateLoop (h : Nodes) (ident : List Byte) (curr : Nat) : (fuel : Nat) → Option Nat
  | 0 => none
  | fuel + 1 =>
      if (h.node curr).ident = ident then
        some curr
      else
        match (h.node curr).next with
        | none => none
        | some next => locateLoop h ident next fuel

/-- `mpt_node_locate` at 1 -/
def nodeLocate (h : Nodes) (curr : Nat) (ident : List Byte) : Option Nat :=
  h.locateLoop ident curr h.size

def setChildren (h : Nodes) (i : Nat) (children : Option Nat) : Nodes :=
  h.set i { h.node i with children := children }

/-- `mpt_node_unlink` -/
def nodeUnlink (h : Nodes) (curr : Nat) : Nodes :=
  let next := (h.node curr).next
  -- change predecessor of successor
  let h := match next with
    | none => h
    | some n => h.set n { h.node n with prev := (h.node curr).prev }
  -- change successor of predecessor, or child link of parent
  let h := match (h.node curr).prev with
    | some p => h.set p { h.node p with next := next }
    | none =>
        match (h.node curr).parent with
        | some q => h.setChildren q next
        | none => h
  h.set curr { h.node curr with parent := none, next := none, prev := none }

/-- A list gets a new parent; the nodes are counted. -/
def parentLoop (h : Nodes) (tmp : Option Nat) (parent move : Nat) : (fuel : Nat) → Nodes × Nat
  | 0 => (h, move)
  | fuel + 1 =>
      match tmp with
      | none => (h, move)
      | some i =>
          let h := h.set i { h.node i with parent := some parent }
          parentLoop h (h.node i).next parent (move + 1) fuel

/-- The loop of `mpt_node_move`.  The pointer `*from` is the link of `from_` to its
    children. -/
def moveLoop : (fuel : Nat) → (h : Nodes) → (from_ dst last : Nat) → (src : Option Nat) →
    (move : Nat) → Nodes × Nat
  | 0, h, _, _, _, _, move => (h, move)
  | _, h, _, _, _, none, move => (h, move)
  | fuel + 1, h, from_, dst, last, some src, move =>
      match h.nodeLocate dst (h.node src).ident with
      -- move complete node
      | none =>
          let next := (h.node src).next
          let h := h.nodeUnlink src
          let h := h.gnodeAdd last src
          moveLoop fuel (h.setChildren from_ next) from_ dst src next (move + 1)
      | some curr =>
          -- move node children
          match (h.node src).children with
          | none => moveLoop fuel h from_ dst last (h.node src).next move
          | some kids =>
              match (h.node curr).children with
              -- merge children
              | some first =>
                  let (h, move) := moveLoop fuel h src first first (some kids) move
                  moveLoop fuel h from_ dst last (h.node src).next move
              -- reparent children to target
              | none =>
                  let (h, move) := (h.setChildren curr (some kids)).parentLoop (some kids) curr move
                    h.size
                  moveLoop fuel h from_ dst last (h.node src).next move

/-- `mpt_node_move`, and how many nodes it moved -/
def nodeMove (h : Nodes) (from_ : Nat) (dst : Option Nat) : Nodes × Nat :=
  match dst with
  | none => (h, 0)
  | some dst => moveLoop h.size h from_ dst dst (h.node from_).children 0

/-- The loop of `mpt_node_clear`, and the nodes that `mpt_node_destroy` frees.  It is
    called with isolated nodes only, and clears them first. -/
def clearLoop : (fuel : Nat) → (h : Nodes) → (tmp : Option Nat) → Nodes × List Nat
  | 0, h, _ => (h, [])
  | _, h, none => (h, [])
  | fuel + 1, h, some tmp =>
      let next := (h.node tmp).next
      let h := h.set tmp { h.node tmp with next := none, prev := none, parent := none }
      let (h, below) := clearLoop fuel h (h.node tmp).children
      let (h, after) := clearLoop fuel (h.setChildren tmp none) next
      (h, below ++ tmp :: after)

/-- `mpt_node_clear` -/
def nodeClear (h : Nodes) (node : Nat) : Nodes × List Nat :=
  let (h, gone) := clearLoop h.size h (h.node node).children
  (h.setChildren node none, gone)

end Nodes

end Mpt.Tree
