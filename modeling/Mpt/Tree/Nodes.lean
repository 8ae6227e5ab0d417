import Mpt.Core

/-! # Nodes

Nodes are linked to their neighbours, their parent and the first of their children.
A node is known by its number in the order of creation.
-/

namespace Mpt.Tree

/-- `struct node`: its name (empty when there is none), its value and its links. -/
structure Node where
  ident : List Byte
  value : Option (List Byte)
  next : Option Nat
  prev : Option Nat
  parent : Option Nat
  children : Option Nat

/-- The nodes created so far. -/
structure Nodes where
  node : Nat → Node
  size : Nat

namespace Nodes

/-- A node with no links. -/
def single (ident : List Byte) (value : Option (List Byte)) : Node :=
  ⟨ident, value, none, none, none, none⟩

/-- The storage with one node (`MPT_NODE_INIT`). -/
def start : Nodes := ⟨fun _ => single [] none, 1⟩

def set (h : Nodes) (i : Nat) (n : Node) : Nodes :=
  { h with node := fun j => if j = i then n else h.node j }

/-- `mpt_node_new` with its content. -/
def new (h : Nodes) (ident : List Byte) (value : Option (List Byte)) : Nodes :=
  { h.set h.size (single ident value) with size := h.size + 1 }

/-- The loop of `mpt_gnode_pos` to the last node of a list. -/
def lastLoop (h : Nodes) (i : Nat) : (fuel : Nat) → Nat
  | 0 => i
  | fuel + 1 =>
      match (h.node i).next with
      | none => i
      | some j => lastLoop h j fuel

/-- `mpt_gnode_pos` at 0.  No list is longer than there are nodes. -/
def gnodeLast (h : Nodes) (i : Nat) : Nat := h.lastLoop i h.size

/-- `mpt_gnode_after` -/
def gnodeAfter (h : Nodes) (position insert : Nat) : Nodes :=
  -- avoid self-reference
  if insert = position then
    h
  else
    let next := (h.node position).next
    let h := h.set insert { h.node insert with
      prev := some position
      next := next
      parent := (h.node position).parent }
    let h := h.set position { h.node position with next := some insert }
    match next with
    | none => h
    | some next => h.set next { h.node next with prev := some insert }

/-- `mpt_gnode_add` at 0 -/
def gnodeAdd (h : Nodes) (first node : Nat) : Nodes := h.gnodeAfter (h.gnodeLast first) node

/-- `mpt_gnode_insert` at 0 -/
def gnodeInsert (h : Nodes) (parent node : Nat) : Nodes :=
  match (h.node parent).children with
  | none =>
      let h := h.set parent { h.node parent with children := some node }
      h.set node { h.node node with parent := some parent }
  | some first => h.gnodeAdd first node

@[simp] theorem set_node (h : Nodes) (i : Nat) (n : Node) : (h.set i n).node i = n := by
  simp [set]

theorem set_other (h : Nodes) {i j : Nat} (n : Node) (other : j ≠ i) :
    (h.set i n).node j = h.node j := by
  simp [set, other]

@[simp] theorem set_size (h : Nodes) (i : Nat) (n : Node) : (h.set i n).size = h.size := rfl

@[simp] theorem new_size (h : Nodes) (ident : List Byte) (value : Option (List Byte)) :
    (h.new ident value).size = h.size + 1 := rfl

@[simp] theorem new_node (h : Nodes) (ident : List Byte) (value : Option (List Byte)) :
    (h.new ident value).node h.size = single ident value := by
  simp [new]

theorem new_other (h : Nodes) (ident : List Byte) (value : Option (List Byte)) {j : Nat}
    (other : j ≠ h.size) : (h.new ident value).node j = h.node j := by
  simp [new, set, other]

end Nodes

/-- The nodes of a list, linked in this order, with one parent. -/
def Chain (h : Nodes) (up : Option Nat) : (prev : Option Nat) → List Nat → Prop
  | _, [] => True
  | prev, i :: is =>
      (h.node i).prev = prev ∧ (h.node i).next = is.head? ∧ (h.node i).parent = up ∧
        Chain h up (some i) is

variable {h h' : Nodes} {up prev : Option Nat}

theorem Chain.congr {is : List Nat} (chain : Chain h up prev is)
    (same : ∀ i ∈ is, (h'.node i).prev = (h.node i).prev ∧ (h'.node i).next = (h.node i).next ∧
      (h'.node i).parent = (h.node i).parent) : Chain h' up prev is := by
  induction is generalizing prev with
  | nil => trivial
  | cons i is ih =>
      obtain ⟨before, after, above, rest⟩ := chain
      obtain ⟨eq, eq', eq''⟩ := same i (by simp)
      exact ⟨eq.trans before, eq'.trans after, eq''.trans above,
        ih rest fun j mem => same j (List.mem_cons_of_mem i mem)⟩

theorem Chain.parent {is : List Nat} (chain : Chain h up prev is) {i : Nat} (mem : i ∈ is) :
    (h.node i).parent = up := by
  induction is generalizing prev with
  | nil => cases mem
  | cons j is ih =>
      obtain ⟨_, _, above, rest⟩ := chain
      rcases List.mem_cons.mp mem with rfl | mem
      · exact above
      · exact ih rest mem

theorem Chain.last {is : List Nat} {l : Nat} (chain : Chain h up prev is)
    (end_ : is.getLast? = some l) : (h.node l).next = none := by
  induction is generalizing prev with
  | nil => cases end_
  | cons i is ih =>
      cases is with
      | nil =>
          simp only [List.getLast?_singleton, Option.some.injEq] at end_
          exact end_ ▸ chain.2.1
      | cons k is => exact ih chain.2.2.2 (by simpa [List.getLast?_cons_cons] using end_)

/-- From a node of a list its last node is reached. -/
theorem lastLoop_chain {is : List Nat} {i last : Nat} (chain : Chain h up prev (i :: is))
    (end_ : (i :: is).getLast? = some last) {fuel : Nat} (enough : is.length ≤ fuel) :
    h.lastLoop i fuel = last := by
  induction is generalizing i prev fuel with
  | nil =>
      simp only [List.getLast?_singleton, Option.some.injEq] at end_
      cases fuel with
      | zero => exact end_
      | succ fuel =>
          simp only [Nodes.lastLoop, chain.2.1, List.head?_nil]
          exact end_
  | cons j is ih =>
      cases fuel with
      | zero => exact absurd enough (by simp)
      | succ fuel =>
          simp only [Nodes.lastLoop, chain.2.1, List.head?_cons]
          exact ih chain.2.2.2 (by simpa [List.getLast?_cons_cons] using end_) (by simpa using enough)

/-- The end of a list, from one of its nodes on. -/
theorem Chain.from_mem {is : List Nat} (chain : Chain h up prev is) {i : Nat} (mem : i ∈ is) :
    ∃ prev' rest, Chain h up prev' (i :: rest) ∧ (i :: rest) <:+ is ∧
      (i :: rest).getLast? = is.getLast? := by
  induction is generalizing prev with
  | nil => cases mem
  | cons j is ih =>
      rcases List.mem_cons.mp mem with rfl | mem
      · exact ⟨prev, is, chain, List.suffix_rfl, rfl⟩
      · obtain ⟨prev', rest, chain', part, last⟩ := ih chain.2.2.2 mem
        refine ⟨prev', rest, chain', part.trans (List.suffix_cons j is), ?_⟩
        cases is with
        | nil => cases mem
        | cons k is => rw [last, List.getLast?_cons_cons]

/-- One more node behind the last one. -/
theorem Chain.extend {is : List Nat} {j : Nat} (chain : Chain h up prev is) (nodup : is.Nodup)
    (same : ∀ i ∈ is, (h'.node i).prev = (h.node i).prev ∧ (h'.node i).parent = (h.node i).parent)
    (next : ∀ i ∈ is, (h'.node i).next = if is.getLast? = some i then some j else (h.node i).next)
    (new : (h'.node j).prev = is.getLast?.or prev ∧ (h'.node j).next = none ∧
      (h'.node j).parent = up) : Chain h' up prev (is ++ [j]) := by
  induction is generalizing prev with
  | nil => exact ⟨new.1, new.2.1, new.2.2, trivial⟩
  | cons i is ih =>
      obtain ⟨before, after, above, rest⟩ := chain
      obtain ⟨eq, eq'⟩ := same i (by simp)
      obtain ⟨absent, nodup⟩ := List.nodup_cons.mp nodup
      have link := next i (by simp)
      refine ⟨eq.trans before, ?_, eq'.trans above, ih rest nodup
        (fun k mem => same k (List.mem_cons_of_mem i mem)) (fun k mem => ?_) ?_⟩
      · cases is with
        | nil => simpa using link
        | cons k is =>
            rw [link, List.getLast?_cons_cons, if_neg, after]
            · rfl
            · intro last
              exact absent (List.mem_of_getLast? last)
      · rw [next k (List.mem_cons_of_mem i mem)]
        cases is with
        | nil => cases mem
        | cons l is => rw [List.getLast?_cons_cons]
      · cases is with
        | nil => simpa using new
        | cons k is =>
            rw [List.getLast?_cons_cons] at new
            rw [List.getLast?_cons] at new ⊢
            exact new

namespace Nodes

/-- A node without links, behind the last one of a list. -/
theorem gnodeAfter_last (h : Nodes) {l n : Nat} (other : n ≠ l) (last : (h.node l).next = none) :
    (h.gnodeAfter l n).node n = { h.node n with
        prev := some l
        next := none
        parent := (h.node l).parent } ∧
      (h.gnodeAfter l n).node l = { h.node l with next := some n } ∧
      (∀ j, j ≠ n → j ≠ l → (h.gnodeAfter l n).node j = h.node j) ∧
      (h.gnodeAfter l n).size = h.size := by
  unfold gnodeAfter
  simp only [if_neg other, last]
  refine ⟨?_, ?_, fun j new old => ?_, rfl⟩
  · rw [set_other _ _ other, set_node]
  · rw [set_node, set_other _ _ other.symm]
  · rw [set_other _ _ old, set_other _ _ new]

theorem gnodeAfter_parent (h : Nodes) (l n : Nat) {j : Nat} (other : j ≠ n) :
    ((h.gnodeAfter l n).node j).parent = (h.node j).parent := by
  have put (h : Nodes) (i : Nat) (x : Node) (same : i = j → x.parent = (h.node j).parent) :
      ((h.set i x).node j).parent = (h.node j).parent := by
    by_cases eq : j = i
    · rw [eq, set_node]
      exact eq ▸ same eq.symm
    · rw [set_other _ _ eq]
  unfold gnodeAfter
  split
  · rfl
  · simp only
    split
    · rw [put _ _ _ (fun eq => by rw [eq]), put _ _ _ (fun eq => absurd eq.symm other)]
    · rw [put _ _ _ (fun eq => by rw [eq]), put _ _ _ (fun eq => by rw [eq]),
        put _ _ _ (fun eq => absurd eq.symm other)]

theorem gnodeInsert_parent (h : Nodes) (q n : Nat) {j : Nat} (other : j ≠ n) :
    ((h.gnodeInsert q n).node j).parent = (h.node j).parent := by
  unfold gnodeInsert
  split
  · simp only
    rw [set_other _ _ other]
    by_cases eq : j = q
    · rw [eq, set_node]
    · rw [set_other _ _ eq]
  · exact gnodeAfter_parent h _ n other

theorem gnodeAfter_size (h : Nodes) (l n : Nat) : (h.gnodeAfter l n).size = h.size := by
  unfold gnodeAfter
  split
  · rfl
  · simp only
    split <;> rfl

theorem gnodeInsert_size (h : Nodes) (q n : Nat) : (h.gnodeInsert q n).size = h.size := by
  unfold gnodeInsert
  split
  · rfl
  · exact gnodeAfter_size h _ n

end Nodes

end Mpt.Tree
