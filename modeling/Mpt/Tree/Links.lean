import Mpt.Tree.CloneRun
import Mathlib.Data.List.Nodup

/-! # The links of a forest, node by node

What the neighbours, the parent and the first child of a node know of it.  The nodes can
be those of several forests.
-/

namespace Mpt.Tree

namespace Nodes

variable (h : Nodes) (i j : Nat) (v : Option Nat)

def setNext : Nodes := h.set i { h.node i with next := v }

def setPrev : Nodes := h.set i { h.node i with prev := v }

def setParent : Nodes := h.set i { h.node i with parent := v }

@[simp] theorem next_setNext :
    ((h.setNext i v).node j).next = if j = i then v else (h.node j).next := by
  by_cases eq : j = i <;> simp [setNext, set, eq]

@[simp] theorem prev_setNext : ((h.setNext i v).node j).prev = (h.node j).prev := by
  by_cases eq : j = i <;> simp [setNext, set, eq]

@[simp] theorem parent_setNext : ((h.setNext i v).node j).parent = (h.node j).parent := by
  by_cases eq : j = i <;> simp [setNext, set, eq]

@[simp] theorem children_setNext : ((h.setNext i v).node j).children = (h.node j).children := by
  by_cases eq : j = i <;> simp [setNext, set, eq]

@[simp] theorem next_setPrev : ((h.setPrev i v).node j).next = (h.node j).next := by
  by_cases eq : j = i <;> simp [setPrev, set, eq]

@[simp] theorem prev_setPrev :
    ((h.setPrev i v).node j).prev = if j = i then v else (h.node j).prev := by
  by_cases eq : j = i <;> simp [setPrev, set, eq]

@[simp] theorem parent_setPrev : ((h.setPrev i v).node j).parent = (h.node j).parent := by
  by_cases eq : j = i <;> simp [setPrev, set, eq]

@[simp] theorem children_setPrev : ((h.setPrev i v).node j).children = (h.node j).children := by
  by_cases eq : j = i <;> simp [setPrev, set, eq]

@[simp] theorem next_setParent : ((h.setParent i v).node j).next = (h.node j).next := by
  by_cases eq : j = i <;> simp [setParent, set, eq]

@[simp] theorem prev_setParent : ((h.setParent i v).node j).prev = (h.node j).prev := by
  by_cases eq : j = i <;> simp [setParent, set, eq]

@[simp] theorem parent_setParent :
    ((h.setParent i v).node j).parent = if j = i then v else (h.node j).parent := by
  by_cases eq : j = i <;> simp [setParent, set, eq]

@[simp] theorem children_setParent : ((h.setParent i v).node j).children = (h.node j).children := by
  by_cases eq : j = i <;> simp [setParent, set, eq]

@[simp] theorem next_setChildren : ((h.setChildren i v).node j).next = (h.node j).next := by
  by_cases eq : j = i <;> simp [setChildren, set, eq]

@[simp] theorem prev_setChildren : ((h.setChildren i v).node j).prev = (h.node j).prev := by
  by_cases eq : j = i <;> simp [setChildren, set, eq]

@[simp] theorem parent_setChildren : ((h.setChildren i v).node j).parent = (h.node j).parent := by
  by_cases eq : j = i <;> simp [setChildren, set, eq]

@[simp] theorem children_setChildren :
    ((h.setChildren i v).node j).children = if j = i then v else (h.node j).children := by
  by_cases eq : j = i <;> simp [setChildren, set, eq]

@[simp] theorem size_setNext : (h.setNext i v).size = h.size := rfl

@[simp] theorem size_setPrev : (h.setPrev i v).size = h.size := rfl

@[simp] theorem size_setParent : (h.setParent i v).size = h.size := rfl

@[simp] theorem size_setChildren : (h.setChildren i v).size = h.size := rfl

end Nodes

namespace SameContent

variable {h h' : Nodes} (same : SameContent h h') (i : Nat) (v : Option Nat)

theorem refl (h : Nodes) : SameContent h h := fun _ => ⟨rfl, rfl⟩

include same

theorem setNext : SameContent h (h'.setNext i v) := same.trans (sameContent_set h' i _ rfl rfl)

theorem setPrev : SameContent h (h'.setPrev i v) := same.trans (sameContent_set h' i _ rfl rfl)

theorem setParent : SameContent h (h'.setParent i v) := same.trans (sameContent_set h' i _ rfl rfl)

theorem setChildren : SameContent h (h'.setChildren i v) :=
  same.trans (sameContent_set h' i _ rfl rfl)

end SameContent

/-- The same nodes, as far as links go. -/
structure SameLinks (n n' : Node) : Prop where
  next : n'.next = n.next
  prev : n'.prev = n.prev
  parent : n'.parent = n.parent
  children : n'.children = n.children

/-- Only links matter. -/
theorem Linked.links {h h' : Nodes} {up prev : Option Nat} {f : Forest} (l : Linked h up prev f)
    (same : ∀ i ∈ f.ids, SameLinks (h.node i) (h'.node i)) : Linked h' up prev f := by
  induction f generalizing up prev with
  | nil => trivial
  | cons i kids rest ihk ihr =>
      obtain ⟨⟨before, after, above, children⟩, below, more⟩ := l
      have here := same i (by simp)
      exact ⟨⟨here.prev.trans before, here.next.trans after, here.parent.trans above,
        here.children.trans children⟩, ihk below fun j mem => same j (by simp [mem]),
        ihr more fun j mem => same j (by simp [mem])⟩

/-- The links of these nodes fit together. -/
structure WellLinked (h : Nodes) (S : List Nat) : Prop where
  next : ∀ i ∈ S, ∀ j, (h.node i).next = some j →
    j ∈ S ∧ (h.node j).prev = some i ∧ (h.node j).parent = (h.node i).parent
  prev : ∀ i ∈ S, ∀ j, (h.node i).prev = some j → j ∈ S ∧ (h.node j).next = some i
  children : ∀ i ∈ S, ∀ j, (h.node i).children = some j →
    j ∈ S ∧ (h.node j).parent = some i ∧ (h.node j).prev = none
  parent : ∀ i ∈ S, ∀ q, (h.node i).parent = some q →
    q ∈ S ∧ ((h.node i).prev = none → (h.node q).children = some i)
  last : ∀ i ∈ S, ∀ j ∈ S, ∀ q, (h.node i).parent = some q → (h.node j).parent = some q →
    (h.node i).next = none → (h.node j).next = none → i = j
  self : ∀ i ∈ S, (h.node i).next ≠ some i ∧ (h.node i).parent ≠ some i

namespace Linked

variable {h : Nodes} {up prev : Option Nat} {f : Forest}

theorem next_mem (l : Linked h up prev f) {i j : Nat} (mem : i ∈ f.ids)
    (next : (h.node i).next = some j) :
    j ∈ f.ids ∧ (h.node j).prev = some i ∧ (h.node j).parent = (h.node i).parent := by
  induction f generalizing up prev with
  | nil => cases mem
  | cons k kids rest ihk ihr =>
      obtain ⟨⟨_, after, above, _⟩, below, more⟩ := l
      simp only [Forest.ids_cons, List.mem_cons, List.mem_append] at mem ⊢
      rcases mem with rfl | mem | mem
      · rw [after] at next
        cases rest with
        | nil => cases next
        | cons j' kids' rest' =>
            obtain rfl : j' = j := Option.some.inj next
            exact ⟨by simp, more.1.1, more.1.2.2.1.trans above.symm⟩
      · obtain ⟨inside, facts⟩ := ihk below mem
        exact ⟨.inr (.inl inside), facts⟩
      · obtain ⟨inside, facts⟩ := ihr more mem
        exact ⟨.inr (.inr inside), facts⟩

theorem prev_mem (l : Linked h up prev f) {i j : Nat} (mem : i ∈ f.ids)
    (before : (h.node i).prev = some j) :
    (f.head? = some i ∧ prev = some j) ∨ (j ∈ f.ids ∧ (h.node j).next = some i) := by
  induction f generalizing up prev with
  | nil => cases mem
  | cons k kids rest ihk ihr =>
      obtain ⟨⟨first, after, _, _⟩, below, more⟩ := l
      simp only [Forest.ids_cons, List.mem_cons, List.mem_append] at mem ⊢
      rcases mem with rfl | mem | mem
      · exact .inl ⟨rfl, first.symm.trans before⟩
      · rcases ihk below mem with ⟨_, none⟩ | ⟨inside, next⟩
        · cases none
        · exact .inr ⟨.inr (.inl inside), next⟩
      · rcases ihr more mem with ⟨head, eq⟩ | ⟨inside, next⟩
        · obtain rfl : k = j := Option.some.inj eq
          exact .inr ⟨.inl rfl, after.trans head⟩
        · exact .inr ⟨.inr (.inr inside), next⟩

theorem children_mem (l : Linked h up prev f) {i j : Nat} (mem : i ∈ f.ids)
    (first : (h.node i).children = some j) :
    j ∈ f.ids ∧ (h.node j).parent = some i ∧ (h.node j).prev = none := by
  induction f generalizing up prev with
  | nil => cases mem
  | cons k kids rest ihk ihr =>
      obtain ⟨⟨_, _, _, children⟩, below, more⟩ := l
      simp only [Forest.ids_cons, List.mem_cons, List.mem_append] at mem ⊢
      rcases mem with rfl | mem | mem
      · rw [children] at first
        cases kids with
        | nil => cases first
        | cons j' kids' rest' =>
            obtain rfl : j' = j := Option.some.inj first
            exact ⟨by simp, below.1.2.2.1, below.1.1⟩
      · obtain ⟨inside, facts⟩ := ihk below mem
        exact ⟨.inr (.inl inside), facts⟩
      · obtain ⟨inside, facts⟩ := ihr more mem
        exact ⟨.inr (.inr inside), facts⟩

/-- Every node is at the top or among the children of another one. -/
theorem place (l : Linked h up prev f) {i : Nat} (mem : i ∈ f.ids) :
    (i ∈ f.tops ∧ (h.node i).parent = up) ∨ ∃ q ∈ f.ids, ∃ g, (h.node q).children = g.head? ∧
      Linked h (some q) none g ∧ i ∈ g.tops ∧ (h.node i).parent = some q := by
  induction f generalizing up prev with
  | nil => cases mem
  | cons k kids rest ihk ihr =>
      obtain ⟨⟨_, _, above, children⟩, below, more⟩ := l
      simp only [Forest.ids_cons, List.mem_cons, List.mem_append] at mem
      rcases mem with rfl | mem | mem
      · exact .inl ⟨by simp, above⟩
      · refine .inr ?_
        rcases ihk below mem with ⟨top, parent⟩ | ⟨q, inside, g, facts⟩
        · exact ⟨k, by simp, kids, children, below, top, parent⟩
        · exact ⟨q, by simp [inside], g, facts⟩
      · rcases ihr more mem with ⟨top, parent⟩ | ⟨q, inside, g, facts⟩
        · exact .inl ⟨by simp [top], parent⟩
        · exact .inr ⟨q, by simp [inside], g, facts⟩

end Linked

/-- What follows a node of the list has one before it. -/
theorem Chain.prev_some {h : Nodes} {up : Option Nat} {k : Nat} {is : List Nat}
    (chain : Chain h up (some k) is) {i : Nat} (mem : i ∈ is) : (h.node i).prev ≠ none := by
  induction is generalizing k with
  | nil => cases mem
  | cons j is ih =>
      obtain ⟨before, _, _, rest⟩ := chain
      rcases List.mem_cons.mp mem with rfl | mem
      · simp [before]
      · exact ih rest mem

theorem Chain.first {h : Nodes} {up prev : Option Nat} {is : List Nat} (chain : Chain h up prev is)
    {i : Nat} (mem : i ∈ is) (first : (h.node i).prev = none) : is.head? = some i := by
  cases is with
  | nil => cases mem
  | cons k is =>
      rcases List.mem_cons.mp mem with rfl | mem
      · rfl
      · exact absurd first (chain.2.2.2.prev_some mem)

theorem Chain.last_unique {h : Nodes} {up prev : Option Nat} {is : List Nat}
    (chain : Chain h up prev is) {i : Nat} (mem : i ∈ is) (end_ : (h.node i).next = none) :
    is.getLast? = some i := by
  induction is generalizing prev with
  | nil => cases mem
  | cons k is ih =>
      obtain ⟨_, after, _, rest⟩ := chain
      cases is with
      | nil =>
          rcases List.mem_cons.mp mem with rfl | mem
          · rfl
          · cases mem
      | cons j is =>
          rw [List.getLast?_cons_cons]
          rcases List.mem_cons.mp mem with rfl | mem
          · rw [end_] at after
            cases after
          · exact ih rest mem

/-- What is below a node of a forest is part of the forest. -/
theorem Linked.below {h : Nodes} {up prev : Option Nat} {f g : Forest} (l : Linked h up prev f)
    {i : Nat} (mem : i ∈ f.ids) (children : (h.node i).children = g.head?)
    (below : Linked h (some i) none g) : List.Sublist (i :: g.ids) f.ids := by
  induction f generalizing up prev with
  | nil => cases mem
  | cons k kids rest ihk ihr =>
      obtain ⟨⟨_, _, _, children'⟩, below', more⟩ := l
      simp only [Forest.ids_cons, List.mem_cons, List.mem_append] at mem ⊢
      rcases mem with rfl | mem | mem
      · obtain rfl : g = kids := Linked.unique below below' (children.symm.trans children')
        exact (List.sublist_append_left _ _).cons_cons i
      · exact ((ihk below' mem).trans (List.sublist_append_left _ _)).cons k
      · exact ((ihr more mem).trans (List.sublist_append_right _ _)).cons k

/-- A node below two others is in a place where one of these is below the other. -/
theorem Linked.meet {h : Nodes} {p b : Nat} {prev : Option Nat} {g kb : Forest}
    (l : Linked h (some p) prev g) (lb : Linked h (some b) none kb) {x : Nat} (mem : x ∈ g.ids)
    (mem' : x ∈ kb.ids) : p ∈ kb.ids ∨ p = b ∨ b ∈ g.ids := by
  have top {p x : Nat} (above : (h.node x).parent = some p) (mem' : x ∈ kb.ids) :
      p ∈ kb.ids ∨ p = b := by
    rcases lb.place mem' with ⟨_, eq⟩ | ⟨q, inside, _, _, _, _, eq⟩
    · exact .inr (Option.some.inj (above.symm.trans eq))
    · rw [Option.some.inj (above.symm.trans eq)]
      exact .inl inside
  induction g generalizing p prev with
  | nil => cases mem
  | cons k kids rest ihk ihr =>
      obtain ⟨⟨_, _, above, _⟩, below, more⟩ := l
      simp only [Forest.ids_cons, List.mem_cons, List.mem_append] at mem ⊢
      rcases mem with rfl | mem | mem
      · rcases top above mem' with inside | same
        · exact .inl inside
        · exact .inr (.inl same)
      · rcases ihk below mem with inside | same | inside
        · rcases top above inside with inside | same
          · exact .inl inside
          · exact .inr (.inl same)
        · exact .inr (.inr (.inl same.symm))
        · exact .inr (.inr (.inr (.inl inside)))
      · rcases ihr more mem with inside | same | inside
        · exact .inl inside
        · exact .inr (.inl same)
        · exact .inr (.inr (.inr (.inr inside)))

/-- A forest gives the links of its nodes. -/
theorem Linked.same {h h' : Nodes} {up prev : Option Nat} {f : Forest} (l : Linked h up prev f)
    (l' : Linked h' up prev f) {i : Nat} (mem : i ∈ f.ids) : SameLinks (h.node i) (h'.node i) := by
  induction f generalizing up prev with
  | nil => cases mem
  | cons k kids rest ihk ihr =>
      obtain ⟨⟨before, after, above, children⟩, below, more⟩ := l
      obtain ⟨⟨before', after', above', children'⟩, below', more'⟩ := l'
      simp only [Forest.ids_cons, List.mem_cons, List.mem_append] at mem
      rcases mem with rfl | mem | mem
      · exact ⟨after'.trans after.symm, before'.trans before.symm, above'.trans above.symm,
          children'.trans children.symm⟩
      · exact ihk below below' mem
      · exact ihr more more' mem

/-- No node is its own neighbour. -/
theorem Linked.next_self {h : Nodes} {up prev : Option Nat} {f : Forest} (l : Linked h up prev f)
    (nodup : f.ids.Nodup) {i : Nat} (mem : i ∈ f.ids) : (h.node i).next ≠ some i := by
  induction f generalizing up prev with
  | nil => cases mem
  | cons k kids rest ihk ihr =>
      obtain ⟨⟨_, after, _, _⟩, below, more⟩ := l
      obtain ⟨absent, nodup⟩ := List.nodup_cons.mp nodup
      obtain ⟨nodupK, nodupR, _⟩ := List.nodup_append.mp nodup
      simp only [Forest.ids_cons, List.mem_cons, List.mem_append] at mem
      rcases mem with rfl | mem | mem
      · rw [after, Forest.head?_eq]
        intro head
        exact absent (List.mem_append_right _ (Forest.mem_ids_of_mem_tops (List.mem_of_head? head)))
      · exact ihk below nodupK mem
      · exact ihr more nodupR mem

/-- The links of several forests. -/
theorem wellLinked {h : Nodes} {fs : List Forest} (l : ∀ f ∈ fs, Linked h none none f)
    (nodup : (fs.flatMap Forest.ids).Nodup) : WellLinked h (fs.flatMap Forest.ids) := by
  have lift {f : Forest} (inside : f ∈ fs) {j : Nat} (mem : j ∈ f.ids) :
      j ∈ fs.flatMap Forest.ids := List.mem_flatMap.mpr ⟨f, inside, mem⟩
  have each {f : Forest} (inside : f ∈ fs) : f.ids.Nodup := by
    exact (List.nodup_flatMap.mp nodup).1 f inside
  refine ⟨?_, ?_, ?_, ?_, ?_, ?_⟩
  · intro i mem j next
    obtain ⟨f, inside, mem⟩ := List.mem_flatMap.mp mem
    obtain ⟨mem', facts⟩ := (l f inside).next_mem mem next
    exact ⟨lift inside mem', facts⟩
  · intro i mem j before
    obtain ⟨f, inside, mem⟩ := List.mem_flatMap.mp mem
    rcases (l f inside).prev_mem mem before with ⟨_, none⟩ | ⟨mem', next⟩
    · cases none
    · exact ⟨lift inside mem', next⟩
  · intro i mem j first
    obtain ⟨f, inside, mem⟩ := List.mem_flatMap.mp mem
    obtain ⟨mem', facts⟩ := (l f inside).children_mem mem first
    exact ⟨lift inside mem', facts⟩
  · intro i mem q above
    obtain ⟨f, inside, mem⟩ := List.mem_flatMap.mp mem
    rcases (l f inside).place mem with ⟨_, none⟩ | ⟨q', mem', g, children, linked, top, above'⟩
    · rw [above] at none
      cases none
    · obtain rfl : q = q' := Option.some.inj (above.symm.trans above')
      refine ⟨lift inside mem', fun first => ?_⟩
      rw [children, Forest.head?_eq]
      exact linked.chain.first top first
  · intro i mem j mem' q above above' end_ end'
    obtain ⟨f, inside, mem⟩ := List.mem_flatMap.mp mem
    obtain ⟨f', inside', mem'⟩ := List.mem_flatMap.mp mem'
    rcases (l f inside).place mem with ⟨_, none⟩ | ⟨p, _, g, children, linked, top, eq⟩
    · rw [above] at none
      cases none
    · rcases (l f' inside').place mem' with ⟨_, none⟩ | ⟨p', _, g', children', linked', top', eq'⟩
      · rw [above'] at none
        cases none
      · obtain rfl : q = p := Option.some.inj (above.symm.trans eq)
        obtain rfl : q = p' := Option.some.inj (above'.symm.trans eq')
        obtain rfl : g = g' := Linked.unique linked linked' (children.symm.trans children')
        have last := linked.chain.last_unique top end_
        have last' := linked.chain.last_unique top' end'
        exact Option.some.inj (last.symm.trans last')
  · intro i mem
    obtain ⟨f, inside, mem⟩ := List.mem_flatMap.mp mem
    refine ⟨(l f inside).next_self (each inside) mem, fun above => ?_⟩
    rcases (l f inside).place mem with ⟨_, none⟩ | ⟨q, mem', g, children, linked, top, above'⟩
    · rw [above] at none
      cases none
    · obtain rfl : i = q := Option.some.inj (above.symm.trans above')
      have part := (l f inside).below mem' children linked
      obtain ⟨apart, _⟩ := List.nodup_cons.mp (part.nodup (each inside))
      exact apart (Forest.mem_ids_of_mem_tops top)

end Mpt.Tree
