import Mpt.Tree.Forest

/-! # Traversal of a forest

A handler is called for the nodes of a list and the nodes below them, until it returns
something else than zero.  The recursive orders differ in where a node comes among the
nodes below it.
-/

namespace Mpt.Tree

/-- `TraverseOrders` -/
inductive Order where
  | post
  | pre
  | in_
  | level
  deriving Repr, DecidableEq

/-- The flags of a traversal: `TraverseOrders`, `TraverseLeafs` and `TraverseNonLeafs`. -/
structure TraverseFlags where
  order : Order
  leafs : Bool
  nonLeafs : Bool
  deriving Repr, DecidableEq

/-- `node_handler`: it gets a node, the data and the depth. -/
abbrev NodeHandler (σ : Type u) := Nat → σ → Nat → Int × σ

/-- The node a traversal returns, and the data.  There is no result while fuel is missing. -/
abbrev Outcome (σ : Type u) := Option (Option Nat × σ)

/-- `MPT_traverse_curr` -/
def TraverseFlags.selects (flags : TraverseFlags) (leaf : Bool) : Bool :=
  if leaf then flags.leafs else flags.nonLeafs

namespace Nodes

variable {σ : Type u} (h : Nodes) (flags : TraverseFlags) (traverse : NodeHandler σ)

/-- Process a single node. -/
def visit (node depth : Nat) (data : σ) : Option Nat × σ :=
  if flags.selects (h.node node).children.isNone then
    let (ret, data) := traverse node data depth
    (if ret ≠ 0 then some node else none, data)
  else (none, data)

/-- Process the nodes of a list. -/
def nextLoop (process : Nat → σ → Outcome σ) : (fuel : Nat) → (node : Option Nat) → σ → Outcome σ
  | _, none, data => some (none, data)
  | 0, some _, _ => none
  | fuel + 1, some node, data =>
      match process node data with
      | some (none, data) => nextLoop process fuel (h.node node).next data
      | ret => ret

/-- `_mpt_gnode_traverse_in` -/
def traverseIn : (fuel depth node : Nat) → σ → Outcome σ
  | 0, _, _, _ => none
  | fuel + 1, depth, node, data =>
      let child := (h.node node).children
      -- process first child before current
      match (match child with
        | none => some (none, data)
        | some child => traverseIn fuel (depth + 1) child data) with
      | some (none, data) =>
          match h.visit flags traverse node depth data with
          | (none, data) =>
              h.nextLoop (traverseIn fuel (depth + 1)) fuel
                (child.bind fun child => (h.node child).next) data
          | ret => some ret
      | ret => ret

/-- `_mpt_gnode_traverse_post` -/
def traversePost : (fuel depth node : Nat) → σ → Outcome σ
  | 0, _, _, _ => none
  | fuel + 1, depth, node, data =>
      match h.nextLoop (traversePost fuel (depth + 1)) fuel (h.node node).children data with
      | some (none, data) => some (h.visit flags traverse node depth data)
      | ret => ret

/-- `_mpt_gnode_traverse_pre` -/
def traversePre : (fuel depth node : Nat) → σ → Outcome σ
  | 0, _, _, _ => none
  | fuel + 1, depth, node, data =>
      match h.visit flags traverse node depth data with
      | (none, data) =>
          h.nextLoop (traversePre fuel (depth + 1)) fuel (h.node node).children data
      | ret => some ret

end Nodes

/-- A node that is met at some depth. -/
structure Visit where
  node : Nat
  depth : Nat
  leaf : Bool
  deriving Repr, DecidableEq

namespace Visit

variable {σ : Type u} (traverse : NodeHandler σ)

/-- Call a handler for one node after the other, until it returns something else than zero. -/
def run : List Visit → σ → Option Nat × σ
  | [], data => (none, data)
  | v :: vs, data =>
      let (ret, data) := traverse v.node data v.depth
      if ret ≠ 0 then (some v.node, data) else run vs data

/-- The nodes that the flags ask for. -/
def calls (flags : TraverseFlags) (vs : List Visit) : List Visit :=
  vs.filter fun v => flags.selects v.leaf

@[simp] theorem run_nil (data : σ) : run traverse [] data = (none, data) := rfl

theorem run_append (vs ws : List Visit) (data : σ) :
    run traverse (vs ++ ws) data =
      match run traverse vs data with
      | (none, data) => run traverse ws data
      | ret => ret := by
  induction vs generalizing data with
  | nil => rfl
  | cons v vs ih =>
      rw [List.cons_append, run, run]
      by_cases stops : (traverse v.node data v.depth).1 ≠ 0
      · simp only [if_pos stops]
      · simp only [if_neg stops]
        exact ih _

@[simp] theorem calls_nil (flags : TraverseFlags) : calls flags [] = [] := rfl

@[simp] theorem calls_append (flags : TraverseFlags) (vs ws : List Visit) :
    calls flags (vs ++ ws) = calls flags vs ++ calls flags ws := List.filter_append ..

end Visit

namespace Forest

/-- The trees of a forest: each node at the top with the forest below it. -/
def trees : Forest → List (Nat × Forest)
  | nil => []
  | cons i kids rest => (i, kids) :: rest.trees

@[simp] theorem trees_nil : nil.trees = [] := rfl

@[simp] theorem trees_cons (i : Nat) (kids rest : Forest) :
    (cons i kids rest).trees = (i, kids) :: rest.trees := rfl

@[simp] theorem length_trees (f : Forest) : f.trees.length = f.tops.length := by
  induction f with
  | nil => rfl
  | cons i kids rest _ ih => simp [ih]

/-- A node at the top. -/
def visit (depth : Nat) (t : Nat × Forest) : Visit := ⟨t.1, depth, t.2.head?.isNone⟩

/-- The visits of each tree, where `arrange` puts a node among the visits of the trees below it. -/
def walk (arrange : Visit → List (List Visit) → List Visit) : Forest → (depth : Nat) → List (List Visit)
  | nil, _ => []
  | cons i kids rest, depth =>
      arrange (visit depth (i, kids)) (kids.walk arrange (depth + 1)) :: rest.walk arrange depth

theorem walk_eq (arrange : Visit → List (List Visit) → List Visit) (f : Forest) (depth : Nat) :
    f.walk arrange depth =
      f.trees.map fun t => arrange (visit depth t) (t.2.walk arrange (depth + 1)) := by
  induction f with
  | nil => rfl
  | cons i kids rest _ ih => rw [walk, ih, trees_cons, List.map_cons]

theorem length_tops_le (f : Forest) : f.tops.length ≤ f.ids.length := by
  induction f with
  | nil => exact Nat.le_refl 0
  | cons i kids rest _ ih =>
      simp only [tops_cons, ids_cons, List.length_cons, List.length_append]
      omega

/-- Children, then the node. -/
def postArrange (v : Visit) (below : List (List Visit)) : List Visit := below.flatten ++ [v]

/-- The node, then its children. -/
def preArrange (v : Visit) (below : List (List Visit)) : List Visit := v :: below.flatten

/-- The first child, the node, then the other children. -/
def inArrange (v : Visit) : (below : List (List Visit)) → List Visit
  | [] => [v]
  | first :: others => first ++ v :: others.flatten

theorem inArrange_cons (v : Visit) (first : List Visit) (others : List (List Visit)) :
    inArrange v (first :: others) = first ++ ([v] ++ others.flatten) := rfl

theorem preArrange_eq (v : Visit) (below : List (List Visit)) :
    preArrange v below = [v] ++ below.flatten := rfl

end Forest

theorem Linked.tree {h : Nodes} {up prev : Option Nat} {f : Forest} (l : Linked h up prev f) :
    ∀ t ∈ f.trees, (h.node t.1).children = t.2.head? ∧ Linked h (some t.1) none t.2 := by
  induction f generalizing prev with
  | nil => exact fun t mem => nomatch mem
  | cons i kids rest _ ih =>
      obtain ⟨⟨_, _, _, children⟩, below, more⟩ := l
      intro t mem
      rcases List.mem_cons.mp mem with rfl | mem
      · exact ⟨children, below⟩
      · exact ih more t mem

section Recursive

variable {σ : Type u} {h : Nodes} (flags : TraverseFlags) (traverse : NodeHandler σ)
variable {up prev : Option Nat} {f : Forest}

open Visit (run calls)
open Forest (visit)

theorem visit_run {t : Nat × Forest} (children : (h.node t.1).children = t.2.head?) (depth : Nat)
    (data : σ) :
    h.visit flags traverse t.1 depth data = run traverse (calls flags [visit depth t]) data := by
  unfold Nodes.visit calls
  rw [children]
  by_cases selected : flags.selects t.2.head?.isNone = true
  · rw [if_pos selected, List.filter_cons_of_pos (by exact selected)]
    simp only [run, visit, List.filter_nil]
    split <;> rfl
  · rw [if_neg selected, List.filter_cons_of_neg (by exact selected)]
    rfl

/-- The loop over a list meets the visits of one tree after the other. -/
theorem nextLoop_run (l : Linked h up prev f) {process : Nat → σ → Outcome σ}
    {visits : Nat × Forest → List Visit}
    (processed : ∀ t ∈ f.trees, ∀ data,
      process t.1 data = some (run traverse (calls flags (visits t)) data))
    {fuel : Nat} (enough : f.tops.length ≤ fuel) (data : σ) :
    h.nextLoop process fuel f.head? data =
      some (run traverse (calls flags (f.trees.map visits).flatten) data) := by
  induction f generalizing prev fuel data with
  | nil => cases fuel <;> rfl
  | cons i kids rest _ ih =>
      obtain ⟨⟨_, after, _, _⟩, _, more⟩ := l
      cases fuel with
      | zero => exact absurd enough (by simp)
      | succ fuel =>
          have first := processed (i, kids) (by simp) data
          rw [Forest.head?, Nodes.nextLoop, first, Forest.trees_cons, List.map_cons, List.flatten_cons,
            Visit.calls_append, Visit.run_append]
          rcases eq : run traverse (calls flags (visits (i, kids))) data with ⟨ret, data'⟩
          cases ret with
          | some ret => rfl
          | none =>
              simp only [after]
              exact ih more (fun t mem => processed t (by simp [mem])) (by simpa using enough) data'

/-- What a node's own processing has to do, with that of the nodes below it. -/
def Arranges (h : Nodes) (flags : TraverseFlags) (traverse : NodeHandler σ)
    (process : (fuel depth node : Nat) → σ → Outcome σ)
    (arrange : Visit → List (List Visit) → List Visit) : Prop :=
  ∀ (fuel depth : Nat) (t : Nat × Forest) (data : σ), (h.node t.1).children = t.2.head? →
    Linked h (some t.1) none t.2 → t.2.tops.length ≤ fuel →
    (∀ t' ∈ t.2.trees, ∀ data, process fuel (depth + 1) t'.1 data =
      some (run traverse (calls flags (arrange (visit (depth + 1) t')
        (t'.2.walk arrange (depth + 2)))) data)) →
    process (fuel + 1) depth t.1 data =
      some (run traverse (calls flags (arrange (visit depth t) (t.2.walk arrange (depth + 1)))) data)

/-- A recursive order is the one in which a single node is put among those below it. -/
theorem process_run {process : (fuel depth node : Nat) → σ → Outcome σ}
    {arrange : Visit → List (List Visit) → List Visit}
    (arranges : Arranges h flags traverse process arrange) (l : Linked h up prev f) {fuel : Nat}
    (enough : f.ids.length ≤ fuel) (depth : Nat) :
    ∀ t ∈ f.trees, ∀ data, process fuel depth t.1 data =
      some (run traverse (calls flags (arrange (visit depth t) (t.2.walk arrange (depth + 1)))) data) := by
  induction f generalizing up prev fuel depth with
  | nil => exact fun t mem => nomatch mem
  | cons i kids rest ihk ihr =>
      obtain ⟨⟨_, _, _, children⟩, below, more⟩ := l
      simp only [Forest.ids_cons, List.length_cons, List.length_append] at enough
      intro t mem data
      rcases List.mem_cons.mp mem with rfl | mem
      · obtain ⟨n, rfl⟩ := Nat.exists_eq_add_of_le' (show 1 ≤ fuel by omega)
        have tops := Forest.length_tops_le kids
        exact arranges n depth (i, kids) data children below (by simp only; omega)
          (ihk below (by omega) (depth + 1))
      · exact ihr more (by omega) depth t mem data

theorem pre_arranges : Arranges h flags traverse (h.traversePre flags traverse) Forest.preArrange := by
  intro fuel depth t data children below enough processed
  have rest := nextLoop_run flags traverse below processed enough
  rw [Nodes.traversePre, visit_run flags traverse children, children, Forest.walk_eq, Forest.preArrange_eq,
    Visit.calls_append, Visit.run_append]
  rcases run traverse (calls flags [visit depth t]) data with ⟨ret, data'⟩
  cases ret with
  | some ret => rfl
  | none => exact rest data'

theorem post_arranges : Arranges h flags traverse (h.traversePost flags traverse) Forest.postArrange := by
  intro fuel depth t data children below enough processed
  have rest := nextLoop_run flags traverse below processed enough data
  rw [Nodes.traversePost, children, rest, Forest.walk_eq, Forest.postArrange, Visit.calls_append,
    Visit.run_append]
  rcases run traverse (calls flags (t.2.trees.map fun t' =>
    Forest.postArrange (visit (depth + 1) t') (t'.2.walk Forest.postArrange (depth + 2))).flatten) data
    with ⟨ret, data'⟩
  cases ret with
  | some ret => rfl
  | none => exact congrArg some (visit_run flags traverse children depth data')

theorem in_arranges : Arranges h flags traverse (h.traverseIn flags traverse) Forest.inArrange := by
  intro fuel depth t data children below enough processed
  rw [Nodes.traverseIn, Forest.walk_eq]
  obtain ⟨i, kids⟩ := t
  cases kids with
  | nil =>
      have single := visit_run flags traverse children depth data
      simp only [children, Forest.head?, single]
      rcases eq : run traverse (calls flags [visit depth (i, Forest.nil)]) data with ⟨ret, data'⟩
      cases ret with
      | some ret => exact congrArg some eq.symm
      | none =>
          refine Eq.trans ?_ (congrArg some eq.symm)
          cases fuel <;> rfl
  | cons c below' others =>
      obtain ⟨⟨_, after, _, _⟩, _, more⟩ := below
      have first := processed (c, below') (by simp) data
      have rest := fun data => nextLoop_run flags traverse more
        (fun t mem => processed t (by simp [mem]))
        (Nat.le_of_succ_le (by simpa using enough)) data
      have single := fun data => visit_run flags traverse children depth data
      simp only [children, Forest.head?, Option.bind_some, first, after, single]
      rw [Forest.trees_cons, List.map_cons, Forest.inArrange_cons, Visit.calls_append,
        Visit.run_append]
      rcases run traverse (calls flags (Forest.inArrange (visit (depth + 1) (c, below'))
        (below'.walk Forest.inArrange (depth + 2)))) data with ⟨ret, data'⟩
      cases ret with
      | some ret => rfl
      | none =>
          simp only
          rw [Visit.calls_append, Visit.run_append]
          rcases run traverse (calls flags [visit depth (i, Forest.cons c below' others)]) data' with
            ⟨ret, data''⟩
          cases ret with
          | some ret => rfl
          | none => exact rest data''

end Recursive

end Mpt.Tree
