import Mpt.Tree.Level
import Mpt.Tree.Leaf
import Mathlib.Algebra.BigOperators.Group.List.Basic

/-! # Copies of nodes, lists and trees

A copy is made of new nodes.  What is allocated for it is counted, so that nothing is left
when a copy is given up.
-/

namespace Mpt.Tree

/-- Which requests for a node are granted: the clone of its value, the memory of a new
    node, and the memory of a long identifier. -/
structure Supply where
  value : Nat → Bool
  node : Nat → Bool
  block : Nat → Bool

/-- The nodes, those of them that are allocated, and the numbers of values and of identifier
    blocks that are in use. -/
structure Pool where
  nodes : Nodes
  live : Nat → Bool
  values : Int
  blocks : Int

/-- What comes of a copy.  A fault is the use of memory after it was freed. -/
inductive Cloning (α : Type) where
  | stuck
  | fault
  | done (w : Pool) (a : α)

/-- The size of a node for an identifier (`mpt_node_new`), as its powers of two. -/
def nodeSize (len : Nat) : Nat :=
  if len + 40 ≤ 64 ∨ 256 < len + 40 then 64 else if len + 40 ≤ 128 then 128 else 256

/-- Whether an identifier does not fit in a node made for it. -/
def external (ident : List Byte) : Bool := nodeSize ident.length - 44 < ident.length

/-- The value of a node, as a number of values. -/
def Nodes.valueCount (h : Nodes) (i : Nat) : Int := if (h.node i).value.isSome then 1 else 0

/-- The block of a long identifier, as a number of blocks. -/
def Nodes.blockCount (h : Nodes) (i : Nat) : Int := if external (h.node i).ident then 1 else 0

namespace Pool

variable (m : Supply) (w : Pool)

/-- A new node with its identifier and value. -/
def born (n : Node) : Pool where
  nodes := w.nodes.new n.ident n.value
  live := fun j => if j = w.nodes.size then true else w.live j
  values := w.values + if n.value.isSome then 1 else 0
  blocks := w.blocks + if external n.ident then 1 else 0

/-- `mpt_node_clone` -/
def nodeClone (node : Nat) : Cloning (Option Nat) :=
  let n := w.nodes.node node
  -- node has cloneable storage
  if n.value.isSome ∧ m.value node = false then .done w none
  -- the clone of the value is released again
  else if m.node node = false then .done w none
  -- the copy is destroyed, but goes on
  else if external n.ident = true ∧ m.block node = false then .fault
  else .done (w.born n) (some w.nodes.size)

/-- The memory of a node, its value and its identifier are released. -/
def drop (i : Nat) : Pool where
  nodes := w.nodes
  live := fun j => if j = i then false else w.live j
  values := w.values - w.nodes.valueCount i
  blocks := w.blocks - w.nodes.blockCount i

/-- `mpt_node_destroy`: a node with a parent or neighbours is kept. -/
def destroy (i : Nat) : Pool :=
  let n := w.nodes.node i
  if n.parent.isSome ∨ n.next.isSome ∨ n.prev.isSome then w
  else
    let (h, gone) := w.nodes.nodeClear i
    (gone ++ [i]).foldl drop { w with nodes := h }

/-- The loop of `mpt_list_clone` that gives a copy up. -/
def release : (fuel : Nat) → Pool → (first : Option Nat) → Pool
  | _, w, none => w
  | 0, w, some _ => w
  | fuel + 1, w, some cpy =>
      let first := (w.nodes.node cpy).next
      let w := { w with nodes := w.nodes.nodeUnlink cpy }
      release fuel (w.destroy cpy) first

def setChildren (i : Nat) (children : Option Nat) : Pool :=
  { w with nodes := w.nodes.setChildren i children }

/-- `mpt_gnode_after`, if there is a node before. -/
def after (last : Option Nat) (cpy : Nat) : Pool :=
  match last with
  | none => w
  | some last => { w with nodes := w.nodes.gnodeAfter last cpy }

/-- `mpt_list_clone`, with the first and the last node of the copy so far. -/
def listLoop : (fuel : Nat) → Pool → (src first last : Option Nat) → Cloning (Option Nat)
  | _, w, none, first, _ => .done w first
  | 0, _, some _, _, _ => .stuck
  | fuel + 1, w, some src, first, last =>
      match w.nodeClone m src with
      | .stuck => .stuck
      | .fault => .fault
      | .done w none => .done (release w.nodes.size w first) none
      | .done w (some cpy) =>
          let w := w.after last cpy
          let first := if last.isNone then some cpy else first
          -- require empty or cloned subtree
          match (w.nodes.node src).children with
          | none => listLoop fuel w (w.nodes.node src).next first (some cpy)
          | some child =>
              match listLoop fuel w (some child) none none with
              | .stuck => .stuck
              | .fault => .fault
              | .done w none =>
                  let w := w.setChildren cpy none
                  listLoop fuel w (w.nodes.node src).next first (some cpy)
              | .done w (some kids) =>
                  let w := w.setChildren cpy (some kids)
                  .done (release w.nodes.size w first) none

/-- `mpt_list_clone` -/
def listClone (fuel : Nat) (src : Option Nat) : Cloning (Option Nat) :=
  listLoop m fuel w src none none

/-- `mpt_tree_clone` -/
def treeClone (fuel src : Nat) : Cloning (Option Nat) :=
  match w.nodeClone m src with
  | .stuck => .stuck
  | .fault => .fault
  | .done w none => .done w none
  | .done w (some cpy) =>
      match (w.nodes.node src).children with
      | none => .done w (some cpy)
      | some child =>
          match w.listClone m fuel (some child) with
          | .stuck => .stuck
          | .fault => .fault
          | .done w none => .done ((w.setChildren cpy none).destroy cpy) none
          | .done w (some kids) => .done (w.setChildren cpy (some kids)) (some cpy)

end Pool

/-- Whether a node can be cloned. -/
def Supply.clones (m : Supply) (h : Nodes) (i : Nat) : Bool :=
  ((h.node i).value.isNone || m.value i) && m.node i

/-- Whether the identifier of a node cannot be copied. -/
def Supply.cut (m : Supply) (h : Nodes) (i : Nat) : Bool := external (h.node i).ident && ! m.block i

namespace Forest

/-- Nodes without children. -/
def leaves : List Nat → Forest
  | [] => nil
  | i :: is => cons i nil (leaves is)

/-- No node at the top has children. -/
def Flat : Forest → Prop
  | nil => True
  | cons _ kids rest => kids = nil ∧ rest.Flat

/-- A list of nodes is not copied if one of them cannot be cloned, or if it has a list of
    children that is. -/
def refused (can : Nat → Bool) : Forest → Bool
  | nil => false
  | cons i kids rest => ! can i || (kids != nil && ! kids.refused can) || rest.refused can

/-- There is an identifier that cannot be copied among the nodes that come to be cloned. -/
def broken (can cut : Nat → Bool) : Forest → Bool
  | nil => false
  | cons i kids rest =>
      can i && (cut i || kids.broken can cut ||
        ((kids == nil || kids.refused can) && rest.broken can cut))

end Forest

/-- The same shape, with the same identifiers and values. -/
def Alike (h h' : Nodes) : Forest → Forest → Prop
  | .nil, .nil => True
  | .cons i kids rest, .cons j kids' rest' =>
      ((h'.node j).ident = (h.node i).ident ∧ (h'.node j).value = (h.node i).value) ∧
        Alike h h' kids kids' ∧ Alike h h' rest rest'
  | _, _ => False

/-- What was created since a state `w₀`, and not released: nodes with their values and
    identifiers.  The nodes of `w₀` are as they were. -/
structure Holds (w₀ w : Pool) (ids : List Nat) : Prop where
  old : ∀ i < w₀.nodes.size, w.nodes.node i = w₀.nodes.node i
  grows : w₀.nodes.size ≤ w.nodes.size
  fresh : ∀ i ∈ ids, w₀.nodes.size ≤ i ∧ i < w.nodes.size
  nodup : ids.Nodup
  live : ∀ i, w.live i = (w₀.live i || decide (i ∈ ids))
  values : w.values = w₀.values + (ids.map w.nodes.valueCount).sum
  blocks : w.blocks = w₀.blocks + (ids.map w.nodes.blockCount).sum

/-- No node is allocated that there is not yet. -/
def Pool.Bounded (w : Pool) : Prop := ∀ i, w.nodes.size ≤ i → w.live i = false

/-- Identifiers and values are those of another state. -/
def SameContent (h h' : Nodes) : Prop :=
  ∀ i, (h'.node i).ident = (h.node i).ident ∧ (h'.node i).value = (h.node i).value

namespace Holds

variable {w₀ w w' : Pool} {ids ids' : List Nat}

theorem refl (w : Pool) : Holds w w [] where
  old := fun _ _ => rfl
  grows := Nat.le_refl _
  fresh := fun _ mem => nomatch mem
  nodup := List.nodup_nil
  live := by simp
  values := by simp
  blocks := by simp

theorem perm (holds : Holds w₀ w ids) (perm : ids.Perm ids') : Holds w₀ w ids' where
  old := holds.old
  grows := holds.grows
  fresh := fun i mem => holds.fresh i (perm.mem_iff.mpr mem)
  nodup := perm.nodup_iff.mp holds.nodup
  live := fun i => by rw [holds.live, decide_eq_decide.mpr perm.mem_iff]
  values := by rw [holds.values, (perm.map _).sum_eq]
  blocks := by rw [holds.blocks, (perm.map _).sum_eq]

/-- New links, of new nodes only. -/
theorem relink (holds : Holds w₀ w ids) {h : Nodes} (same : SameContent w.nodes h)
    (size : h.size = w.nodes.size) (old : ∀ i < w₀.nodes.size, h.node i = w.nodes.node i) :
    Holds w₀ { w with nodes := h } ids where
  old := fun i inside => (old i inside).trans (holds.old i inside)
  grows := by rw [size]; exact holds.grows
  fresh := by rw [size]; exact holds.fresh
  nodup := holds.nodup
  live := holds.live
  values := by
    have kept : ids.map h.valueCount = ids.map w.nodes.valueCount :=
      List.map_congr_left fun i _ => by simp only [Nodes.valueCount, (same i).2]
    rw [kept]
    exact holds.values
  blocks := by
    have kept : ids.map h.blockCount = ids.map w.nodes.blockCount :=
      List.map_congr_left fun i _ => by simp only [Nodes.blockCount, (same i).1]
    rw [kept]
    exact holds.blocks

/-- One more node. -/
theorem born (holds : Holds w₀ w ids) (n : Node) : Holds w₀ (w.born n) (ids ++ [w.nodes.size]) := by
  have other : ∀ i ∈ ids, i ≠ w.nodes.size := fun i mem => by
    have := (holds.fresh i mem).2
    omega
  have kept : ∀ i, i ≠ w.nodes.size → (w.born n).nodes.node i = w.nodes.node i :=
    fun i ne => Nodes.new_other _ _ _ ne
  have new : (w.born n).nodes.node w.nodes.size = Nodes.single n.ident n.value := Nodes.new_node _ _ _
  refine ⟨?_, Nat.le_succ_of_le holds.grows, ?_, ?_, ?_, ?_, ?_⟩
  · intro i inside
    have := holds.grows
    rw [kept i (by omega), holds.old i inside]
  · intro i mem
    rcases List.mem_append.mp mem with mem | mem
    · exact ⟨(holds.fresh i mem).1, Nat.lt_succ_of_lt (holds.fresh i mem).2⟩
    · rw [List.mem_singleton.mp mem]
      exact ⟨holds.grows, Nat.lt_succ_self _⟩
  · refine List.nodup_append.mpr ⟨holds.nodup, by simp, ?_⟩
    intro i mem j mem' eq
    exact other i mem (eq.trans (List.mem_singleton.mp mem'))
  · intro i
    have live := holds.live i
    by_cases new : i = w.nodes.size
    · simp [Pool.born, new]
    · simp [Pool.born, new, live]
  · have same : ids.map (w.born n).nodes.valueCount = ids.map w.nodes.valueCount :=
      List.map_congr_left fun i mem => by rw [Nodes.valueCount, kept i (other i mem), Nodes.valueCount]
    rw [List.map_append, List.sum_append, List.map_singleton, List.sum_singleton, same,
      ← Int.add_assoc, ← holds.values, Nodes.valueCount, new]
    rfl
  · have same : ids.map (w.born n).nodes.blockCount = ids.map w.nodes.blockCount :=
      List.map_congr_left fun i mem => by rw [Nodes.blockCount, kept i (other i mem), Nodes.blockCount]
    rw [List.map_append, List.sum_append, List.map_singleton, List.sum_singleton, same,
      ← Int.add_assoc, ← holds.blocks, Nodes.blockCount, new]
    rfl

/-- One node is released. -/
theorem drop {i : Nat} (holds : Holds w₀ w (i :: ids)) (bounded : w₀.Bounded) :
    Holds w₀ (w.drop i) ids := by
  obtain ⟨absent, nodup⟩ := List.nodup_cons.mp holds.nodup
  have new := (holds.fresh i (List.mem_cons_self ..)).1
  refine ⟨holds.old, holds.grows, fun j mem => holds.fresh j (List.mem_cons_of_mem i mem), nodup,
    ?_, ?_, ?_⟩
  · intro j
    by_cases eq : j = i
    · rw [eq]
      simp [Pool.drop, absent, bounded i new]
    · have live := holds.live j
      simp only [List.mem_cons, eq, false_or] at live
      simp [Pool.drop, eq, live]
  · have values := holds.values
    rw [List.map_cons, List.sum_cons] at values
    show w.values - w.nodes.valueCount i = w₀.values + (ids.map w.nodes.valueCount).sum
    omega
  · have blocks := holds.blocks
    rw [List.map_cons, List.sum_cons] at blocks
    show w.blocks - w.nodes.blockCount i = w₀.blocks + (ids.map w.nodes.blockCount).sum
    omega

theorem drops {gone : List Nat} (holds : Holds w₀ w (gone ++ ids)) (bounded : w₀.Bounded) :
    Holds w₀ (gone.foldl Pool.drop w) ids ∧ (gone.foldl Pool.drop w).nodes = w.nodes := by
  induction gone generalizing w with
  | nil => exact ⟨holds, rfl⟩
  | cons i gone ih =>
      obtain ⟨rest, same⟩ := ih (holds.drop bounded)
      exact ⟨rest, same⟩

/-- What was created in two parts. -/
theorem trans (first : Holds w₀ w ids) (second : Holds w w' ids') : Holds w₀ w' (ids ++ ids') := by
  have kept : ∀ i ∈ ids, w'.nodes.node i = w.nodes.node i :=
    fun i mem => second.old i (first.fresh i mem).2
  refine ⟨?_, Nat.le_trans first.grows second.grows, ?_, ?_, ?_, ?_, ?_⟩
  · intro i inside
    rw [second.old i (Nat.lt_of_lt_of_le inside first.grows), first.old i inside]
  · intro i mem
    rcases List.mem_append.mp mem with mem | mem
    · exact ⟨(first.fresh i mem).1, Nat.lt_of_lt_of_le (first.fresh i mem).2 second.grows⟩
    · exact ⟨Nat.le_trans first.grows (second.fresh i mem).1, (second.fresh i mem).2⟩
  · refine List.nodup_append.mpr ⟨first.nodup, second.nodup, ?_⟩
    rintro i mem j mem' rfl
    have := (first.fresh i mem).2
    have := (second.fresh i mem').1
    omega
  · intro i
    rw [second.live, first.live]
    simp [Bool.or_assoc]
  · have same : ids.map w'.nodes.valueCount = ids.map w.nodes.valueCount :=
      List.map_congr_left fun i mem => by rw [Nodes.valueCount, kept i mem, Nodes.valueCount]
    rw [List.map_append, List.sum_append, same, second.values, first.values, Int.add_assoc]
  · have same : ids.map w'.nodes.blockCount = ids.map w.nodes.blockCount :=
      List.map_congr_left fun i mem => by rw [Nodes.blockCount, kept i mem, Nodes.blockCount]
    rw [List.map_append, List.sum_append, same, second.blocks, first.blocks, Int.add_assoc]

/-- What was there is still bounded. -/
theorem bounded (holds : Holds w₀ w ids) (bounded : w₀.Bounded) : w.Bounded := by
  intro i beyond
  rw [holds.live, bounded i (Nat.le_trans holds.grows beyond)]
  simp only [Bool.false_or, decide_eq_false_iff_not]
  intro mem
  have := (holds.fresh i mem).2
  omega

end Holds

section Leaves

open Forest (leaves)

@[simp] theorem tops_leaves (is : List Nat) : (leaves is).tops = is := by
  induction is with
  | nil => rfl
  | cons i is ih => rw [leaves, Forest.tops_cons, ih]

@[simp] theorem ids_leaves (is : List Nat) : (leaves is).ids = is := by
  induction is with
  | nil => rfl
  | cons i is ih => rw [leaves, Forest.ids_cons, ih, Forest.ids_nil, List.nil_append]

theorem leaves_concat (is : List Nat) (c : Nat) :
    leaves (is ++ [c]) = (leaves is).append (.cons c .nil .nil) := by
  induction is with
  | nil => rfl
  | cons i is ih => rw [List.cons_append, leaves, ih, leaves, Forest.cons_append]

theorem head?_leaves (is : List Nat) : (leaves is).head? = is.head? := by
  cases is <;> rfl

/-- The last node of a list of leaves, and one without links behind it. -/
theorem after_spec {w : Pool} {ids : List Nat} {c : Nat}
    (l : Linked w.nodes none none (leaves ids)) (nodup : (ids ++ [c]).Nodup)
    (single : w.nodes.node c = Nodes.single (w.nodes.node c).ident (w.nodes.node c).value) :
    ∃ h, w.after ids.getLast? c = { w with nodes := h } ∧ h.size = w.nodes.size ∧
      SameContent w.nodes h ∧ (∀ i, i ∉ ids ++ [c] → h.node i = w.nodes.node i) ∧
      Linked h none none (leaves (ids ++ [c])) := by
  have links : (w.nodes.node c).prev = none ∧ (w.nodes.node c).next = none ∧
      (w.nodes.node c).parent = none ∧ (w.nodes.node c).children = none := by
    rw [single]
    exact ⟨rfl, rfl, rfl, rfl⟩
  rcases end_ : ids.getLast? with _ | last
  · have none : ids = [] := List.getLast?_eq_none_iff.mp end_
    subst none
    exact ⟨w.nodes, rfl, rfl, fun _ => ⟨rfl, rfl⟩, fun _ _ => rfl, links, trivial, trivial⟩
  · have inside := List.mem_of_getLast? end_
    have other : c ≠ last := by
      rintro rfl
      exact (List.nodup_append.mp nodup).2.2 c inside c (by simp) rfl
    have tail : (w.nodes.node last).next = none := l.chain.last (by rw [tops_leaves, end_])
    have above : (w.nodes.node last).parent = none := l.chain.parent (by rwa [tops_leaves])
    obtain ⟨new, old, same, size⟩ := w.nodes.gnodeAfter_last other tail
    refine ⟨w.nodes.gnodeAfter last c, rfl, size, ?_, ?_, ?_⟩
    · intro i
      by_cases here : i = c
      · rw [here, new]
        exact ⟨rfl, rfl⟩
      · by_cases there : i = last
        · rw [there, old]
          exact ⟨rfl, rfl⟩
        · rw [same i here there]
          exact ⟨rfl, rfl⟩
    · intro i outside
      rw [List.mem_append, List.mem_singleton, not_or] at outside
      refine same i outside.2 ?_
      rintro rfl
      exact outside.1 inside
    · rw [leaves_concat]
      refine l.extend (by rw [tops_leaves, end_]) trivial (by simpa using nodup) old ?_ ?_
      · rw [new]
        exact ⟨rfl, rfl, above, links.2.2.2⟩
      · intro i mem ne
        refine same i ?_ ne
        rintro rfl
        rw [ids_leaves, Forest.ids_nil, List.append_nil] at mem
        exact (List.nodup_append.mp nodup).2.2 i mem i (by simp) rfl

end Leaves

section Destroy

open Forest (leaves)

theorem SameContent.trans {h h' h'' : Nodes} (first : SameContent h h') (second : SameContent h' h'') :
    SameContent h h'' :=
  fun i => ⟨(second i).1.trans (first i).1, (second i).2.trans (first i).2⟩

theorem sameContent_set (h : Nodes) (i : Nat) (n : Node) (ident : n.ident = (h.node i).ident)
    (value : n.value = (h.node i).value) : SameContent h (h.set i n) := by
  intro j
  by_cases eq : j = i
  · rw [eq, Nodes.set_node]
    exact ⟨ident, value⟩
  · rw [Nodes.set_other _ _ eq]
    exact ⟨rfl, rfl⟩

/-- Clearing changes links only. -/
theorem clearLoop_content (fuel : Nat) (h : Nodes) (tmp : Option Nat) :
    SameContent h (Nodes.clearLoop fuel h tmp).1 := by
  induction fuel generalizing h tmp with
  | zero => exact fun _ => ⟨rfl, rfl⟩
  | succ fuel ih =>
      cases tmp with
      | none => exact fun _ => ⟨rfl, rfl⟩
      | some i =>
          rw [clearLoop_some]
          generalize isolated :
            h.set i { h.node i with next := none, prev := none, parent := none } = h₁
          have first : SameContent h h₁ := isolated ▸ sameContent_set h i _ rfl rfl
          have second := ih h₁ (h₁.node i).children
          rcases below : Nodes.clearLoop fuel h₁ (h₁.node i).children with ⟨h₂, gone⟩
          rw [below] at second
          have third : SameContent h₂ (h₂.setChildren i none) := sameContent_set h₂ i _ rfl rfl
          simp only [below]
          exact ((first.trans second).trans third).trans (ih _ _)

variable {w₀ w : Pool}

/-- A node with a list of leaves below it is destroyed as a whole. -/
theorem destroy_spec {c : Nat} {kids rest : List Nat}
    (isolated : (w.nodes.node c).parent = none ∧ (w.nodes.node c).next = none ∧
      (w.nodes.node c).prev = none)
    (children : (w.nodes.node c).children = kids.head?) (l : Linked w.nodes none none (leaves kids))
    (holds : Holds w₀ w (c :: kids ++ rest)) (bounded : w₀.Bounded) :
    Holds w₀ (w.destroy c) rest ∧ (w.destroy c).nodes.size = w.nodes.size ∧
      ∀ i, i ∉ c :: kids → (w.destroy c).nodes.node i = w.nodes.node i := by
  have nodup := (List.nodup_append.mp holds.nodup).1
  have inside : ∀ i ∈ c :: kids, w₀.nodes.size ≤ i ∧ i < w.nodes.size :=
    fun i mem => holds.fresh i (List.mem_append_left rest mem)
  have nodupK := (List.nodup_cons.mp nodup).2
  have enough : (leaves kids).ids.length ≤ w.nodes.size := by
    rw [ids_leaves]
    exact length_le_of_below nodupK fun i mem => (inside i (by simp [mem])).2
  obtain ⟨h, gone, run, perm, same, size⟩ :=
    clearLoop_spec l (by rwa [ids_leaves]) enough
  rw [ids_leaves] at perm same
  rw [head?_leaves, ← children] at run
  have content := clearLoop_content w.nodes.size w.nodes (w.nodes.node c).children
  rw [run] at content
  have eq : w.destroy c = (gone ++ [c]).foldl Pool.drop { w with nodes := h.setChildren c none } := by
    unfold Pool.destroy
    rw [if_neg (by rw [isolated.1, isolated.2.1, isolated.2.2]; simp)]
    simp only [Nodes.nodeClear, run]
  have kept : ∀ i, i ∉ c :: kids → (h.setChildren c none).node i = w.nodes.node i := by
    intro i outside
    rw [List.mem_cons, not_or] at outside
    rw [Nodes.setChildren, Nodes.set_other _ _ outside.1, same i outside.2]
  have cleared : Holds w₀ { w with nodes := h.setChildren c none } ((gone ++ [c]) ++ rest) := by
    have order : (c :: kids ++ rest).Perm ((gone ++ [c]) ++ rest) := by
      refine List.Perm.append_right rest ?_
      exact (List.Perm.cons c perm.symm).trans (List.perm_append_singleton c gone).symm
    refine (holds.perm order).relink ?_ size ?_
    · exact content.trans (sameContent_set _ c _ rfl rfl)
    · intro i old
      refine kept i fun mem => ?_
      have := (inside i mem).1
      omega
  obtain ⟨done, nodes⟩ := cleared.drops bounded
  rw [← eq] at done nodes
  refine ⟨done, ?_, ?_⟩
  · rw [nodes]
    exact size
  · rw [nodes]
    exact kept

/-- A list of nodes without parent, each with a list of leaves that do not know their parent. -/
def Loose (h : Nodes) : (prev : Option Nat) → List (Nat × List Nat) → Prop
  | _, [] => True
  | prev, (i, kids) :: rest =>
      ((h.node i).prev = prev ∧ (h.node i).next = rest.head?.map Prod.fst ∧
        (h.node i).parent = none ∧ (h.node i).children = kids.head?) ∧
      Linked h none none (leaves kids) ∧ Loose h (some i) rest

/-- All nodes of such a list. -/
def looseIds (g : List (Nat × List Nat)) : List Nat := g.flatMap fun t => t.1 :: t.2

@[simp] theorem looseIds_cons (i : Nat) (kids : List Nat) (g : List (Nat × List Nat)) :
    looseIds ((i, kids) :: g) = i :: kids ++ looseIds g := by
  simp [looseIds]

theorem Loose.congr {h h' : Nodes} {prev : Option Nat} {g : List (Nat × List Nat)}
    (loose : Loose h prev g) (same : ∀ i ∈ looseIds g, h'.node i = h.node i) : Loose h' prev g := by
  induction g generalizing prev with
  | nil => trivial
  | cons t g ih =>
      obtain ⟨i, kids⟩ := t
      obtain ⟨here, below, more⟩ := loose
      rw [looseIds_cons] at same
      refine ⟨by rw [same i (by simp)]; exact here, below.congr fun j mem => same j ?_,
        ih more fun j mem => same j (List.mem_append_right _ mem)⟩
      rw [ids_leaves] at mem
      simp [mem]

/-- The first node of a list is taken away. -/
theorem unlink_head {h : Nodes} {i : Nat} (first : (h.node i).prev = none)
    (above : (h.node i).parent = none) (other : (h.node i).next ≠ some i) :
    (h.nodeUnlink i).node i = { h.node i with parent := none, next := none, prev := none } ∧
      (∀ n, (h.node i).next = some n → (h.nodeUnlink i).node n = { h.node n with prev := none }) ∧
      (∀ j, j ≠ i → (h.node i).next ≠ some j → (h.nodeUnlink i).node j = h.node j) ∧
      (h.nodeUnlink i).size = h.size := by
  cases after : (h.node i).next with
  | none =>
      have eq : h.nodeUnlink i =
          h.set i { h.node i with parent := none, next := none, prev := none } := by
        simp only [Nodes.nodeUnlink, after, first, above]
      rw [eq]
      refine ⟨Nodes.set_node _ _ _, fun n eq => (nomatch eq), fun j ne _ => ?_, rfl⟩
      exact Nodes.set_other _ _ ne
  | some n =>
      have ne : i ≠ n := by
        rintro rfl
        exact other after
      have eq : h.nodeUnlink i = (h.set n { h.node n with prev := none }).set i
          { h.node i with parent := none, next := none, prev := none } := by
        simp only [Nodes.nodeUnlink, after, first, Nodes.set_other _ _ ne, above]
      rw [eq]
      refine ⟨Nodes.set_node _ _ _, ?_, ?_, rfl⟩
      · rintro n' eq
        rw [← Option.some.inj eq, Nodes.set_other _ _ ne.symm, Nodes.set_node]
      · intro j here there
        rw [Nodes.set_other _ _ here, Nodes.set_other _ _ fun eq => there (congrArg some eq.symm)]

/-- A copy that is given up is released as a whole. -/
theorem release_spec {g : List (Nat × List Nat)} {rest : List Nat} {fuel : Nat}
    (loose : Loose w.nodes none g) (holds : Holds w₀ w (looseIds g ++ rest)) (bounded : w₀.Bounded)
    (enough : g.length ≤ fuel) :
    Holds w₀ (Pool.release fuel w (g.head?.map Prod.fst)) rest := by
  induction g generalizing w fuel with
  | nil => cases fuel <;> exact holds
  | cons t g ih =>
      obtain ⟨i, kids⟩ := t
      obtain ⟨n, rfl⟩ := Nat.exists_eq_add_of_le' (Nat.le_trans (by simp) enough : 1 ≤ fuel)
      obtain ⟨⟨first, after, above, children⟩, below, more⟩ := loose
      rw [looseIds_cons, List.append_assoc] at holds
      have nodup := holds.nodup
      rw [← List.append_assoc] at nodup
      have nodupI := (List.nodup_append.mp nodup).1
      obtain ⟨nodupK, nodupG, apart⟩ := List.nodup_append.mp nodupI
      -- the next node is another one
      have next_mem : ∀ j, (w.nodes.node i).next = some j → j ∈ looseIds g := by
        intro j eq
        rw [after] at eq
        cases g with
        | nil => cases eq
        | cons t' g' =>
            obtain ⟨i', kids'⟩ := t'
            rw [← Option.some.inj eq]
            simp
      have other : (w.nodes.node i).next ≠ some i := fun eq =>
        apart i (by simp) i (next_mem i eq) rfl
      obtain ⟨here, next, same, size⟩ := unlink_head first above other
      generalize unlinked : w.nodes.nodeUnlink i = h at here next same size
      have below' : Linked h none none (leaves kids) := by
        refine below.congr fun j mem => ?_
        rw [ids_leaves] at mem
        refine same j ?_ fun eq => apart j (by simp [mem]) j (next_mem j eq) rfl
        rintro rfl
        exact (List.nodup_cons.mp nodupK).1 mem
      have holds' : Holds w₀ { w with nodes := h } (i :: kids ++ (looseIds g ++ rest)) := by
        refine holds.relink ?_ size ?_
        · intro j
          by_cases eq : j = i
          · rw [eq, here]
            exact ⟨rfl, rfl⟩
          · by_cases eq' : (w.nodes.node i).next = some j
            · rw [next j eq']
              exact ⟨rfl, rfl⟩
            · rw [same j eq eq']
              exact ⟨rfl, rfl⟩
        · intro j old
          refine same j ?_ fun eq => ?_
          · rintro rfl
            have := (holds.fresh j (by simp)).1
            omega
          · have := (holds.fresh j (by simp [next_mem j eq])).1
            omega
      obtain ⟨done, size', kept⟩ := @destroy_spec w₀ { w with nodes := h } i kids (looseIds g ++ rest)
        (by rw [here]; exact ⟨rfl, rfl, rfl⟩) (by rw [here]; exact children) below' holds' bounded
      simp only [List.head?_cons, Option.map_some, Pool.release, unlinked, after]
      refine ih ?_ done (by simpa using enough)
      -- what is left starts a list
      have free : ∀ j ∈ looseIds g, j ∉ i :: kids := fun j mem mem' => apart j mem' j mem rfl
      cases g with
      | nil => trivial
      | cons t' g' =>
          obtain ⟨i', kids'⟩ := t'
          have head : h.node i' = { w.nodes.node i' with prev := none } := next i' after
          obtain ⟨⟨_, after', above', children'⟩, below'', more'⟩ := more
          rw [looseIds_cons] at free nodupG
          have others : ∀ j ∈ looseIds ((i', kids') :: g'), j ≠ i' →
              (Pool.destroy { w with nodes := h } i).nodes.node j = w.nodes.node j := by
            intro j mem ne
            rw [looseIds_cons] at mem
            rw [kept j (free j mem)]
            refine same j ?_ ?_
            · rintro rfl
              exact free j mem (by simp)
            · rw [after]
              exact fun eq => ne (Option.some.inj eq).symm
          have absent := (List.nodup_cons.mp nodupG).1
          refine ⟨?_, ?_, ?_⟩
          · rw [kept i' (free i' (by simp)), head]
            exact ⟨rfl, after', above', children'⟩
          · refine below''.congr fun j mem => others j ?_ ?_
            · rw [ids_leaves] at mem
              simp [mem]
            · rintro rfl
              rw [ids_leaves] at mem
              exact absent (by simp [mem])
          · refine more'.congr fun j mem => others j (by simp [mem]) ?_
            rintro rfl
            exact absent (by simp [mem])

end Destroy

end Mpt.Tree
