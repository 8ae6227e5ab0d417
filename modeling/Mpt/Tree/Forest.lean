import Mpt.Tree.Nodes
import Mathlib.Data.List.Perm.Subperm

/-! # Forests of linked nodes

A forest is a list of nodes with the forests below them.  The nodes of a storage are
linked as a forest says when each one has its place in the list of its parent.
-/

namespace Mpt.Tree

theorem length_le_of_below {l : List Nat} {n : Nat} (nodup : l.Nodup) (below : ∀ i ∈ l, i < n) :
    l.length ≤ n := by
  have part := List.subperm_of_subset nodup fun i mem => List.mem_range.mpr (below i mem)
  simpa using part.length_le

/-- A first node, the nodes below it and the nodes next to it. -/
inductive Forest where
  | nil
  | cons (i : Nat) (kids rest : Forest)
  deriving DecidableEq

namespace Forest

/-- All nodes, in the order in which they are met. -/
def ids : Forest → List Nat
  | nil => []
  | cons i kids rest => i :: (kids.ids ++ rest.ids)

/-- The nodes that have no parent in the forest. -/
def tops : Forest → List Nat
  | nil => []
  | cons i _ rest => i :: rest.tops

def head? : Forest → Option Nat
  | nil => none
  | cons i _ _ => some i

def append : Forest → Forest → Forest
  | nil, g => g
  | cons i kids rest, g => cons i kids (rest.append g)

@[simp] theorem ids_nil : nil.ids = [] := rfl

@[simp] theorem ids_cons (i : Nat) (kids rest : Forest) :
    (cons i kids rest).ids = i :: (kids.ids ++ rest.ids) := rfl

@[simp] theorem tops_nil : nil.tops = [] := rfl

@[simp] theorem tops_cons (i : Nat) (kids rest : Forest) :
    (cons i kids rest).tops = i :: rest.tops := rfl

@[simp] theorem nil_append (g : Forest) : nil.append g = g := rfl

@[simp] theorem cons_append (i : Nat) (kids rest g : Forest) :
    (cons i kids rest).append g = cons i kids (rest.append g) := rfl

@[simp] theorem append_nil (f : Forest) : f.append nil = f := by
  induction f with
  | nil => rfl
  | cons i kids rest _ ih => rw [cons_append, ih]

theorem append_assoc (f g k : Forest) : (f.append g).append k = f.append (g.append k) := by
  induction f with
  | nil => rfl
  | cons i kids rest _ ih => rw [cons_append, cons_append, cons_append, ih]

theorem head?_eq (f : Forest) : f.head? = f.tops.head? := by
  cases f <;> rfl

@[simp] theorem tops_append (f g : Forest) : (f.append g).tops = f.tops ++ g.tops := by
  induction f with
  | nil => rfl
  | cons i kids rest _ ih => simp [ih]

@[simp] theorem ids_append (f g : Forest) : (f.append g).ids = f.ids ++ g.ids := by
  induction f with
  | nil => rfl
  | cons i kids rest _ ih => simp [ih]

theorem mem_ids_of_mem_tops {f : Forest} {i : Nat} (mem : i ∈ f.tops) : i ∈ f.ids := by
  induction f with
  | nil => cases mem
  | cons j kids rest _ ih =>
      rcases List.mem_cons.mp mem with rfl | mem
      · simp
      · simp [ih mem]

theorem nodup_tops {f : Forest} (nodup : f.ids.Nodup) : f.tops.Nodup := by
  induction f with
  | nil => exact List.nodup_nil
  | cons i kids rest _ ih =>
      obtain ⟨absent, nodup⟩ := List.nodup_cons.mp nodup
      refine List.nodup_cons.mpr ⟨fun mem => absent ?_, ih (List.nodup_append.mp nodup).2.1⟩
      exact List.mem_append_right _ (mem_ids_of_mem_tops mem)

end Forest

/-- The nodes are linked as the forest says, below a parent. -/
def Linked (h : Nodes) : (up prev : Option Nat) → Forest → Prop
  | _, _, .nil => True
  | up, prev, .cons i kids rest =>
      ((h.node i).prev = prev ∧ (h.node i).next = rest.head? ∧ (h.node i).parent = up ∧
        (h.node i).children = kids.head?) ∧
      Linked h (some i) none kids ∧ Linked h up (some i) rest

namespace Linked

variable {h h' : Nodes} {up prev : Option Nat} {f g : Forest}

/-- Nodes elsewhere do not matter. -/
theorem congr (l : Linked h up prev f) (same : ∀ i ∈ f.ids, h'.node i = h.node i) :
    Linked h' up prev f := by
  induction f generalizing up prev with
  | nil => trivial
  | cons i kids rest ihk ihr =>
      obtain ⟨here, below, after⟩ := l
      refine ⟨?_, ihk below fun j mem => same j (by simp [mem]),
        ihr after fun j mem => same j (by simp [mem])⟩
      rw [same i (by simp)]
      exact here

theorem chain (l : Linked h up prev f) : Chain h up prev f.tops := by
  induction f generalizing prev with
  | nil => trivial
  | cons i kids rest _ ih =>
      obtain ⟨⟨before, after, above, _⟩, _, more⟩ := l
      exact ⟨before, after.trans (Forest.head?_eq rest), above, ih more⟩

/-- One more node, with the nodes below it, behind the last one. -/
theorem extend (l : Linked h up prev f) {last o : Nat} {kids : Forest}
    (end_ : f.tops.getLast? = some last) (below : Linked h (some o) none kids)
    (nodup : (f.ids ++ (o :: kids.ids)).Nodup)
    (lastNode : h'.node last = { h.node last with next := some o })
    (new : (h'.node o).prev = some last ∧ (h'.node o).next = none ∧ (h'.node o).parent = up ∧
      (h'.node o).children = kids.head?)
    (same : ∀ i ∈ f.ids ++ kids.ids, i ≠ last → h'.node i = h.node i) :
    Linked h' up prev (f.append (.cons o kids .nil)) := by
  induction f generalizing prev with
  | nil => cases end_
  | cons i ks rest _ ih =>
      obtain ⟨⟨before, after, above, children⟩, belowKs, more⟩ := l
      have disjoint := (List.nodup_append.mp nodup).2.2
      have nodupF := (List.nodup_append.mp nodup).1
      obtain ⟨absent, nodupR⟩ := List.nodup_cons.mp nodupF
      cases rest with
      | nil =>
          obtain rfl : i = last := by simpa using end_
          have ks_same : Linked h' (some i) none ks := by
            refine belowKs.congr fun j mem => same j (by simp [mem]) fun eq => absent ?_
            rw [← eq]
            simp [mem]
          have kids_same : Linked h' (some o) none kids := by
            refine below.congr fun j mem => same j (by simp [mem]) ?_
            exact (disjoint i (by simp) j (by simp [mem])).symm
          refine ⟨?_, ks_same, new, kids_same, trivial⟩
          rw [lastNode]
          exact ⟨before, rfl, above, children⟩
      | cons j ks' rest' =>
          have inside : last ∈ (Forest.cons j ks' rest').tops := by
            refine List.mem_of_getLast? ?_
            simpa [List.getLast?_cons_cons] using end_
          have insideIds := Forest.mem_ids_of_mem_tops inside
          have other : i ≠ last := by
            rintro rfl
            exact absent (List.mem_append_right _ insideIds)
          have ks_same : Linked h' (some i) none ks := by
            refine belowKs.congr fun k mem => same k (by simp [mem]) ?_
            rintro rfl
            exact (List.nodup_append.mp nodupR).2.2 k mem k insideIds rfl
          refine ⟨?_, ks_same, ih more (by simpa [List.getLast?_cons_cons] using end_) ?_ ?_⟩
          · rw [same i (by simp) other]
            exact ⟨before, after, above, children⟩
          · simp only [Forest.ids_cons, List.cons_append, List.append_assoc] at nodup ⊢
            exact (List.nodup_append.mp (List.nodup_cons.mp nodup).2).2.1
          · intro k mem ne
            refine same k ?_ ne
            rcases List.mem_append.mp mem with mem | mem
            · exact List.mem_append_left _ (List.mem_cons_of_mem i (List.mem_append_right _ mem))
            · exact List.mem_append_right _ mem

end Linked

end Mpt.Tree
