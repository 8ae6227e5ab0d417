import Mpt.Tree.Switch

/-! # Places in a list of nodes

A place in a list is counted among all nodes of it, or among those with the same identifier.
-/

namespace Mpt.Tree

/-- An identifier as `mpt_identifier_set` makes it: one with a character set is not empty. -/
structure Identifier where
  charset : Nat
  data : List Byte
  named : charset ≠ 0 → data ≠ []

/-- How `mpt_node_locate` compares an identifier with the one of a node. -/
def Identifier.same (ident cid : Identifier) : Bool :=
  if ident.charset ≠ cid.charset then false
  else ident.data.length == cid.data.length && ident.data == cid.data.take ident.data.length

namespace Nodes

variable (h : Nodes)

/-- `mpt_gnode_before` -/
def gnodeBefore (position insert : Nat) : Nodes :=
  -- avoid self-reference
  if insert = position then
    h
  else
    let h := h.setPrev insert (h.node position).prev
    let h := h.setNext insert (some position)
    let h := h.setPrev position (some insert)
    let h := h.setParent insert (h.node position).parent
    match (h.node insert).prev with
    | some prev => h.setNext prev (some insert)
    | none =>
        match (h.node insert).parent with
        | some parent => h.setChildren parent (some insert)
        | none => h

/-- The first loop of `mpt_gnode_pos`: a predecessor of the node. -/
def predecessorLoop : (fuel : Nat) → (node : Option Nat) → (pos : Int) → Option Nat
  | 0, _, _ => none
  | fuel + 1, node, pos =>
      if pos = 0 then
        node
      else
        match node with
        | none => none
        | some node => predecessorLoop fuel (h.node node).prev (pos + 1)

/-- The second loop of `mpt_gnode_pos`: a position starting with the node. -/
def successorLoop : (fuel : Nat) → (node : Option Nat) → (pos : Int) → Option Nat
  | 0, _, _ => none
  | fuel + 1, node, pos =>
      if pos - 1 = 0 then
        node
      else
        match node with
        | none => none
        | some node => successorLoop fuel (h.node node).next (pos - 1)

/-- `mpt_gnode_pos`.  No list is longer than there are nodes. -/
def gnodePos (node : Nat) (pos : Int) : Option Nat :=
  if pos < 0 then
    h.predecessorLoop (h.size + 1) (some node) pos
  else if pos ≠ 0 then
    h.successorLoop h.size (some node) pos
  else
    some (h.gnodeLast node)

/-- The loop of `mpt_node_locate` that starts with the previous node. -/
def locatePrevious (same : Nat → Bool) : (fuel curr : Nat) → (pos : Int) → Option Nat
  | 0, _, _ => none
  | fuel + 1, curr, pos =>
      match (h.node curr).prev with
      | none => none
      | some curr =>
          if same curr then
            if pos + 1 = 0 then some curr else locatePrevious same fuel curr (pos + 1)
          else
            locatePrevious same fuel curr pos

/-- The loop of `mpt_node_locate` that starts with the current node. -/
def locateCurrent (same : Nat → Bool) : (fuel curr : Nat) → (pos : Int) → Option Nat
  | 0, _, _ => none
  | fuel + 1, curr, pos =>
      let more (pos : Int) :=
        match (h.node curr).next with
        | none => none
        | some next => locateCurrent same fuel next pos
      if same curr then
        if pos - 1 = 0 then some curr else more (pos - 1)
      else
        more pos

/-- `mpt_node_locate` -/
def nodeLocateAt (same : Nat → Bool) (curr : Nat) (pos : Int) : Option Nat :=
  -- simple end search, check final for match
  if pos = 0 then
    let curr := h.gnodeLast curr
    if same curr then some curr else h.locatePrevious same h.size curr (-1)
  -- negative offset, start with previous
  else if pos < 0 then
    h.locatePrevious same h.size curr pos
  -- positive offset, start with current
  else
    h.locateCurrent same h.size curr pos

/-- `-pos` for an `int` -/
def negate (pos : Int) : Int := if pos = -2 ^ 31 then pos else -pos

/-- `node_insert` -/
def insertAt (getnode : Nat → Int → Option Nat) (first : Nat) (pos : Int) (node : Nat) : Nodes :=
  -- get starting position
  let start := getnode first (if 0 < pos then 1 else 0)
  -- location is start position
  let tmp :=
    match start with
    | none => none
    | some start => if pos = 0 ∨ pos = 1 then some start else getnode start pos
  -- swap insertion order and set position (first/last) if not found
  let (tmp, pos) :=
    match tmp with
    | some tmp => (some tmp, pos)
    | none =>
        if start.isSome then
          (getnode first (if pos < 0 then 1 else 0), negate pos)
        else
          (h.gnodePos first 0, 0)
  -- insert node on requested position
  match tmp with
  | none => h
  | some tmp => if pos < 1 then h.gnodeAfter tmp node else h.gnodeBefore tmp node

/-- `node_locate` of the identifier that a node has -/
def locateIdent (ident : Nat → Identifier) (node first : Nat) (pos : Int) : Option Nat :=
  h.nodeLocateAt (fun i => (ident node).same (ident i)) first pos

/-- `mpt_gnode_add` -/
def gnodeAddAt (first : Option Nat) (pos : Int) (node : Option Nat) : Option Nat × Nodes :=
  match first, node with
  | some first, some n => (node, h.insertAt h.gnodePos first pos n)
  | _, _ => (node, h)

/-- `mpt_node_add` -/
def nodeAddAt (ident : Nat → Identifier) (first : Option Nat) (pos : Int) (node : Option Nat) :
    Option Nat × Nodes :=
  match first, node with
  | some first, some n => (node, h.insertAt (h.locateIdent ident n) first pos n)
  | _, _ => (node, h)

/-- `mpt_gnode_insert` -/
def gnodeInsertAt (parent : Nat) (pos : Int) (node : Option Nat) : Int × Nodes :=
  match node with
  | none => (-1, h)
  | some node =>
      match (h.node parent).children with
      | none => (0, (h.setChildren parent (some node)).setParent node (some parent))
      | some first => (0, h.insertAt h.gnodePos first pos node)

/-- `mpt_node_insert` -/
def nodeInsertAt (ident : Nat → Identifier) (parent : Nat) (pos : Int) (node : Option Nat) :
    Int × Nodes :=
  match node with
  | none => (-1, h)
  | some node =>
      match (h.node parent).children with
      | none => (0, (h.setChildren parent (some node)).setParent node (some parent))
      | some first => (0, h.insertAt (h.locateIdent ident node) first pos node)

section Fields

variable {h} {n x : Nat}

/-- The links that `mpt_gnode_before` sets. -/
theorem gnodeBefore_links (ne : n ≠ x) (j : Nat) :
    ((h.gnodeBefore x n).node j).next =
        (if (h.node x).prev = some j then some n else if j = n then some x else (h.node j).next) ∧
      ((h.gnodeBefore x n).node j).prev =
        (if j = x then some n else if j = n then (h.node x).prev else (h.node j).prev) ∧
      ((h.gnodeBefore x n).node j).parent =
        (if j = n then (h.node x).parent else (h.node j).parent) ∧
      ((h.gnodeBefore x n).node j).children =
        (if (h.node x).prev = none ∧ (h.node x).parent = some j then some n
          else (h.node j).children) := by
  rw [gnodeBefore, if_neg ne]
  cases before : (h.node x).prev with
  | some p => simp [ne, eq_comm]
  | none =>
      cases above : (h.node x).parent with
      | some q => simp [ne, above, eq_comm]
      | none => simp [ne, above]

theorem set_set (i : Nat) (a b : Node) : (h.set i a).set i b = h.set i b := by
  simp only [set, mk.injEq, and_true]
  funext j
  by_cases eq : j = i <;> simp [eq]

/-- `mpt_gnode_after`, link by link. -/
theorem gnodeAfter_eq (ne : n ≠ x) : h.gnodeAfter x n =
    let h' := (((h.setPrev n (some x)).setNext n (h.node x).next).setParent n
      (h.node x).parent).setNext x (some n)
    match (h.node x).next with
    | none => h'
    | some next => h'.setPrev next (some n) := by
  rw [gnodeAfter, if_neg ne]
  cases (h.node x).next with
  | none => simp only [setPrev, setNext, setParent, set_set, set_node]
  | some next => simp only [setPrev, setNext, setParent, set_set, set_node]

/-- `mpt_node_unlink`, link by link. -/
theorem nodeUnlink_eq : h.nodeUnlink n =
    let next := (h.node n).next
    let h := match next with
      | none => h
      | some t => h.setPrev t (h.node n).prev
    let h := match (h.node n).prev with
      | some p => h.setNext p next
      | none =>
          match (h.node n).parent with
          | some q => h.setChildren q next
          | none => h
    ((h.setParent n none).setNext n none).setPrev n none := by
  simp only [setPrev, setNext, setParent, set_set, set_node]
  all_goals rfl

/-- The links that `mpt_gnode_after` sets. -/
theorem gnodeAfter_links (ne : n ≠ x) (j : Nat) :
    ((h.gnodeAfter x n).node j).next =
        (if j = x then some n else if j = n then (h.node x).next else (h.node j).next) ∧
      ((h.gnodeAfter x n).node j).prev =
        (if (h.node x).next = some j then some n else if j = n then some x else (h.node j).prev) ∧
      ((h.gnodeAfter x n).node j).parent =
        (if j = n then (h.node x).parent else (h.node j).parent) ∧
      ((h.gnodeAfter x n).node j).children = (h.node j).children := by
  rw [gnodeAfter_eq ne]
  cases after : (h.node x).next with
  | some t => simp [eq_comm]
  | none => simp

/-- The links that `mpt_node_unlink` leaves, when the node is not next to itself. -/
theorem nodeUnlink_links (self : (h.node n).next ≠ some n) (j : Nat) :
    ((h.nodeUnlink n).node j).next =
        (if j = n then none else if (h.node n).prev = some j then (h.node n).next
          else (h.node j).next) ∧
      ((h.nodeUnlink n).node j).prev =
        (if j = n then none else if (h.node n).next = some j then (h.node n).prev
          else (h.node j).prev) ∧
      ((h.nodeUnlink n).node j).parent = (if j = n then none else (h.node j).parent) ∧
      ((h.nodeUnlink n).node j).children =
        (if (h.node n).prev = none ∧ (h.node n).parent = some j then (h.node n).next
          else (h.node j).children) := by
  rw [nodeUnlink_eq]
  cases after : (h.node n).next with
  | some t =>
      have ne : t ≠ n := fun eq => self (eq ▸ after)
      cases before : (h.node n).prev with
      | some p => simp [before, ne.symm, eq_comm]
      | none => cases above : (h.node n).parent <;> simp [before, above, ne.symm, eq_comm]
  | none =>
      cases before : (h.node n).prev with
      | some p => simp [before, eq_comm]
      | none => cases above : (h.node n).parent <;> simp [before, above, eq_comm]

end Fields

end Nodes

end Mpt.Tree
