import Mpt.Tree.Merge
import Mpt.Tree.Inserted

/-! # Moving nodes merges the lists

What `mpt_node_move` leaves in both lists is what the merge says, as long as its
condition holds; all other nodes stay as they are.
-/

namespace Mpt.Tree

open Forest

variable {nm : Nat → List Byte} {h h' : Nodes} {up prev : Option Nat}

/-- The first node with a name. -/
def named (nm : Nat → List Byte) (name : List Byte) (l : List Nat) : Option Nat :=
  l.find? fun j => decide (nm j = name)

theorem locateLoop_eq (idents : ∀ i, (h.node i).ident = nm i) {name : List Byte} {is : List Nat}
    {i : Nat} (chain : Chain h up prev (i :: is)) {fuel : Nat} (enough : is.length < fuel) :
    h.locateLoop name i fuel = named nm name (i :: is) := by
  induction is generalizing i prev fuel with
  | nil =>
      cases fuel with
      | zero => exact absurd enough (Nat.not_lt_zero _)
      | succ fuel =>
          simp only [Nodes.locateLoop, idents, chain.2.1, List.head?_nil, named, List.find?_cons,
            List.find?_nil]
          by_cases same : nm i = name <;> simp [same]
  | cons j is ih =>
      cases fuel with
      | zero => exact absurd enough (Nat.not_lt_zero _)
      | succ fuel =>
          simp only [Nodes.locateLoop, idents, chain.2.1, List.head?_cons]
          by_cases same : nm i = name
          · simp [named, same]
          · rw [if_neg same, ih chain.2.2.2 (by simpa using enough)]
            simp [named, same]

theorem nodeLocate_eq (idents : ∀ i, (h.node i).ident = nm i) {f : Forest}
    (l : Linked h up prev f) {dst : Nat} (head : f.head? = some dst) (nodup : f.ids.Nodup)
    (below : ∀ i ∈ f.ids, i < h.size) (name : List Byte) :
    h.nodeLocate dst name = named nm name f.tops := by
  have size := length_le_of_below (nodup_tops nodup) fun i mem => below i (mem_ids_of_mem_tops mem)
  cases f with
  | nil => cases head
  | cons i kids rest =>
      obtain rfl := Option.some.inj head
      exact locateLoop_eq idents l.chain size

theorem named_none {name : List Byte} {l : List Nat} (absent : name ∉ l.map nm) :
    named nm name l = none := by
  refine List.find?_eq_none.mpr fun i mem same => absent ?_
  exact List.mem_map.mpr ⟨i, mem, of_decide_eq_true same⟩

theorem named_append {name : List Byte} {l l' : List Nat} :
    named nm name (l ++ l') = (named nm name l).or (named nm name l') := by
  simp [named]

namespace Forest

theorem kidsOf_append {name : List Byte} {f below : Forest} (g : Forest)
    (found : f.kidsOf nm name = some below) : (f.append g).kidsOf nm name = some below := by
  induction f with
  | nil => cases found
  | cons i kids rest _ ih =>
      unfold kidsOf at found
      rw [cons_append]
      unfold kidsOf
      split at found
      · next same => rw [if_pos same, found]
      · next other => rw [if_neg other, ih found]

theorem update_append {name : List Byte} {f below : Forest} (g : Forest)
    (found : f.kidsOf nm name = some below) (t : Forest → Forest) :
    (f.append g).update nm name t = (f.update nm name t).append g := by
  induction f with
  | nil => cases found
  | cons i kids rest _ ih =>
      unfold kidsOf at found
      rw [cons_append]
      unfold update
      split at found
      · next same => rw [if_pos same, if_pos same, cons_append]
      · next other => rw [if_neg other, if_neg other, ih found, cons_append]

theorem head?_merge {old below : Forest} (some : below ≠ nil) :
    (old.merge nm below).head? = below.head? := by
  cases below with
  | nil => exact absurd rfl some
  | cons i kids rest => simp [merge, head?_eq]

/-- Old nodes that have counterparts stay where they are. -/
theorem tops_left {old new : Forest} (matched : ∀ o ∈ old.tops, nm o ∈ new.names nm) :
    (old.left nm new).tops = old.tops := by
  induction old generalizing new with
  | nil => rfl
  | cons o kids rest _ ih =>
      have here := matched o (by simp)
      unfold left
      cases found : new.kidsOf nm (nm o) with
      | none => exact absurd here (kidsOf_eq_none.mp found)
      | some below =>
          simp only [tops_cons]
          rw [ih]
          intro x mem
          rw [names_update]
          exact matched x (by simp [mem])

end Forest

/-- The counterpart of an old node, and what is below it. -/
theorem Linked.kidsOf {f below : Forest} {name : List Byte} (l : Linked h up prev f)
    (found : f.kidsOf nm name = some below) (nodup : f.ids.Nodup) :
    ∃ c, named nm name f.tops = some c ∧ c ∈ f.tops ∧ (h.node c).children = below.head? ∧
      Linked h (some c) none below ∧ c ∉ below.ids ∧ below.ids.Nodup ∧
      ∀ i ∈ below.ids, i ∈ f.ids := by
  induction f generalizing prev with
  | nil => cases found
  | cons i kids rest _ ih =>
      obtain ⟨⟨_, _, _, children⟩, inside, more⟩ := l
      obtain ⟨absent, nodup⟩ := List.nodup_cons.mp nodup
      obtain ⟨nodupKids, nodupRest, _⟩ := List.nodup_append.mp nodup
      unfold Forest.kidsOf at found
      split at found
      · next same =>
          obtain rfl := Option.some.inj found
          refine ⟨i, ?_, by simp, children, inside, fun mem => absent (by simp [mem]), nodupKids,
            fun j mem => by simp [mem]⟩
          simp [named, same]
      · next other =>
          obtain ⟨c, find, mem, children, inside, apart, nodupBelow, part⟩ :=
            ih more found nodupRest
          refine ⟨c, ?_, by simp [mem], children, inside, apart, nodupBelow,
            fun j mem => by simp [part j mem]⟩
          simpa [named, other] using find

/-- Other nodes are put below the counterpart, which knows them. -/
theorem Linked.replace {f below : Forest} {name : List Byte} {t : Forest → Forest} {c : Nat}
    (l : Linked h up prev f) (found : f.kidsOf nm name = some below) (nodup : f.ids.Nodup)
    (find : named nm name f.tops = some c) (inside : Linked h' (some c) none (t below))
    (counterpart : h'.node c = { h.node c with children := (t below).head? })
    (same : ∀ i ∈ f.ids, i ≠ c → i ∉ below.ids → h'.node i = h.node i) :
    Linked h' up prev (f.update nm name t) := by
  induction f generalizing prev with
  | nil => cases found
  | cons i kids rest _ ih =>
      obtain ⟨⟨before, after, above, children⟩, insideOld, more⟩ := l
      obtain ⟨absent, nodup⟩ := List.nodup_cons.mp nodup
      obtain ⟨_, nodupRest, disjoint⟩ := List.nodup_append.mp nodup
      unfold Forest.kidsOf at found
      unfold Forest.update
      split at found
      · next hit =>
          obtain rfl := Option.some.inj found
          obtain rfl : i = c := by simpa [named, hit] using find
          rw [if_pos hit]
          refine ⟨?_, inside, more.congr fun j mem => same j (by simp [mem]) ?_ fun mem' =>
            disjoint j mem' j mem rfl⟩
          · rw [counterpart]
            exact ⟨before, after, above, rfl⟩
          · rintro rfl
            exact absent (List.mem_append_right _ mem)
      · next other =>
          rw [if_neg other]
          obtain ⟨_, find', memC, _, _, _, _, part⟩ := more.kidsOf found nodupRest
          obtain rfl := Option.some.inj (find'.symm.trans (by simpa [named, other] using find))
          have memC := Forest.mem_ids_of_mem_tops memC
          have outside : ∀ j, j ∉ rest.ids → j ≠ _ ∧ j ∉ below.ids := fun j out =>
            ⟨fun eq => out (eq ▸ memC), fun mem => out (part j mem)⟩
          have absent' := outside i fun mem => absent (by simp [mem])
          have here := same i (by simp) absent'.1 absent'.2
          refine ⟨?_, insideOld.congr fun j mem => ?_, ih more found nodupRest find' fun j mem =>
            same j (by simp [mem])⟩
          · rw [here, Forest.head?_eq, Forest.tops_update, ← Forest.head?_eq]
            exact ⟨before, after, above, children⟩
          · have apart := outside j fun mem' => disjoint j mem j mem' rfl
            exact same j (by simp [mem]) apart.1 apart.2

/-- Other nodes are put below the counterpart. -/
theorem Linked.update {f below : Forest} {name : List Byte} {t : Forest → Forest} {c : Nat}
    (l : Linked h up prev f) (found : f.kidsOf nm name = some below) (nodup : f.ids.Nodup)
    (find : named nm name f.tops = some c) (inside : Linked h' (some c) none (t below))
    (head : (t below).head? = below.head?)
    (same : ∀ i ∈ f.ids, i ∉ below.ids → h'.node i = h.node i) :
    Linked h' up prev (f.update nm name t) := by
  obtain ⟨c', find', mem, children, _, apart, _, _⟩ := l.kidsOf found nodup
  obtain rfl := Option.some.inj (find'.symm.trans find)
  refine l.replace found nodup find inside ?_ fun i mem _ out => same i mem out
  rw [same c' (mem_ids_of_mem_tops mem) apart, head, ← children]

/-- What a move of the list `old`, owned by `from_`, into the list `new` leaves; `moved`
    are the nodes that were kept before. -/
structure Moved (nm : Nat → List Byte) (h h' : Nodes) (from_ : Nat) (prev up : Option Nat)
    (old new moved : Forest) : Prop where
  source : Linked h' (some from_) prev (old.left nm new)
  target : Linked h' up none
    ((old.absorb nm new).append (moved.append (old.unmatched nm (new.names nm))))
  same : ∀ i, i ≠ from_ → i ∉ old.ids → i ∉ (new.append moved).ids → h'.node i = h.node i
  owner : h'.node from_ = { h.node from_ with children := (h'.node from_).children }
  matched : (∀ o ∈ old.tops, nm o ∈ new.names nm) →
    (h'.node from_).children = (h.node from_).children
  first : prev = none → (h.node from_).children = old.head? →
    (h'.node from_).children = (old.left nm new).head?
  content : ∀ i, (h'.node i).ident = (h.node i).ident ∧ (h'.node i).value = (h.node i).value
  size : h'.size = h.size

/-- The lists of a move are linked, and apart from each other and from the owner. -/
structure Apart (nm : Nat → List Byte) (h : Nodes) (from_ : Nat) (prev up : Option Nat)
    (old target : Forest) : Prop where
  oldLinked : Linked h (some from_) prev old
  newLinked : Linked h up none target
  nodup : (from_ :: (old.ids ++ target.ids)).Nodup
  below : ∀ i ∈ old.ids ++ target.ids, i < h.size
  idents : ∀ i, (h.node i).ident = nm i

namespace Forest

/-- How many nodes of a list, and of the lists below it, come to another list. -/
def moves (nm : Nat → List Byte) : (old new : Forest) → Nat
  | nil, _ => 0
  | cons o kids rest, new =>
      match new.kidsOf nm (nm o) with
      | none => rest.moves nm new + 1
      | some below => kids.moves nm below + rest.moves nm (new.update nm (nm o) (kids.merge nm))

end Forest

/-- What a move leaves, when the pointer to the list is that of `from_` and its nodes have a
    parent or none. -/
structure Merged (nm : Nat → List Byte) (h h' : Nodes) (from_ : Nat) (owner prev up : Option Nat)
    (old new moved : Forest) : Prop where
  source : Linked h' owner prev (old.left nm new)
  target : Linked h' up none
    ((old.absorb nm new).append (moved.append (old.unmatched nm (new.names nm))))
  same : ∀ i, i ≠ from_ → i ∉ old.ids → i ∉ (new.append moved).ids → h'.node i = h.node i
  owner : h'.node from_ = { h.node from_ with children := (h'.node from_).children }
  matched : (∀ o ∈ old.tops, nm o ∈ new.names nm) →
    (h'.node from_).children = (h.node from_).children
  first : prev = none → (h.node from_).children = old.head? →
    (h'.node from_).children = (old.left nm new).head?
  content : ∀ i, (h'.node i).ident = (h.node i).ident ∧ (h'.node i).value = (h.node i).value
  size : h'.size = h.size

/-- The lists of a move, whose nodes have a parent or none. -/
structure Lists (nm : Nat → List Byte) (h : Nodes) (from_ : Nat) (owner prev up : Option Nat)
    (old target : Forest) : Prop where
  cell : owner = some from_ ∨ owner = none
  oldLinked : Linked h owner prev old
  newLinked : Linked h up none target
  nodup : (from_ :: (old.ids ++ target.ids)).Nodup
  below : ∀ i ∈ old.ids ++ target.ids, i < h.size
  idents : ∀ i, (h.node i).ident = nm i

/-- The lists below a node and below its counterpart are apart, too. -/
theorem Lists.kids {from_ o : Nat} {owner : Option Nat} {k r target below : Forest}
    (a : Lists nm h from_ owner prev up (.cons o k r) target)
    (found : target.kidsOf nm (nm o) = some below) :
    ∃ c, named nm (nm o) target.tops = some c ∧ c ∈ target.ids ∧
      (h.node c).children = below.head? ∧ c ∉ below.ids ∧
      Lists nm h o (some o) none (some c) k below := by
  obtain ⟨nodupOld, nodupNew, disjoint⟩ := List.nodup_append.mp (List.nodup_cons.mp a.nodup).2
  obtain ⟨absentO, nodupKR⟩ := List.nodup_cons.mp nodupOld
  obtain ⟨_, belowO, _⟩ := a.oldLinked
  obtain ⟨c, find, memC, children, belowC, apart, nodupBelow, part⟩ :=
    a.newLinked.kidsOf found nodupNew
  refine ⟨c, find, mem_ids_of_mem_tops memC, children, apart, .inl rfl, belowO, belowC, ?_,
    fun x mem => a.below x ?_, a.idents⟩
  · refine List.nodup_cons.mpr ⟨fun mem => ?_, List.nodup_append.mpr
      ⟨(List.nodup_append.mp nodupKR).1, nodupBelow, fun x mem y mem' => ?_⟩⟩
    · rcases List.mem_append.mp mem with mem | mem
      · exact absentO (List.mem_append_left _ mem)
      · exact disjoint o (by simp) o (part o mem) rfl
    · refine disjoint x ?_ y (part y mem')
      exact List.mem_cons_of_mem o (List.mem_append_left _ mem)
  · rcases List.mem_append.mp mem with mem | mem
    · exact List.mem_append_left _ (List.mem_cons_of_mem o (List.mem_append_left _ mem))
    · exact List.mem_append_right _ (part x mem)

section Kept

variable {from_ o l last : Nat} {owner : Option Nat} {k r target : Forest}

theorem node_ext {n n' : Node} (ident : n'.ident = n.ident) (value : n'.value = n.value)
    (next : n'.next = n.next) (prev : n'.prev = n.prev) (parent : n'.parent = n.parent)
    (children : n'.children = n.children) : n' = n :=
  node_eq ⟨ident, value⟩ ⟨next, prev, parent, children⟩

/-- The storage after an old node without counterpart was handed over. -/
def Merged.kept (h : Nodes) (from_ last o : Nat) (r : Forest) : Nodes :=
  ((h.nodeUnlink o).gnodeAdd last o).setChildren from_ r.head?

/-- A node `o` was handed over from any place of a list, where `before` and `nx` are next to it,
    to the place behind `l`. -/
structure HandedOver (h h' : Nodes) (from_ o l : Nat) (before up nx : Option Nat) : Prop where
  content : SameContent h h'
  size : h'.size = h.size
  next : ∀ j, (h'.node j).next = if j = l then some o else if j = o then none else
    if before = some j then nx else (h.node j).next
  prev : ∀ j, (h'.node j).prev = if j = o then some l else
    if nx = some j then before else (h.node j).prev
  parent : ∀ j, (h'.node j).parent = if j = o then up else (h.node j).parent
  children : ∀ j, (h'.node j).children = if j = from_ then nx else (h.node j).children

namespace HandedOver

variable {before nx : Option Nat}

/-- Nodes elsewhere are as they were. -/
theorem same (handed : HandedOver h h' from_ o l before up nx) {i : Nat} (neO : i ≠ o) (neL : i ≠ l)
    (neF : i ≠ from_) (notBefore : before ≠ some i) (notNext : nx ≠ some i) :
    h'.node i = h.node i := by
  apply node_ext (handed.content i).1 (handed.content i).2
  · rw [handed.next, if_neg neL, if_neg neO, if_neg notBefore]
  · rw [handed.prev, if_neg neO, if_neg notNext]
  · rw [handed.parent, if_neg neO]
  · rw [handed.children, if_neg neF]

/-- The node before it only knows another one that follows. -/
theorem same_before (handed : HandedOver h h' from_ o l before up nx) {p : Nat} (neO : p ≠ o)
    (neF : p ≠ from_) (notNext : nx ≠ some p) :
    h'.node p = { h.node p with next := (h'.node p).next } := by
  refine node_ext (handed.content p).1 (handed.content p).2 rfl ?_ ?_ ?_
  · exact (handed.prev p).trans (by rw [if_neg neO, if_neg notNext])
  · exact (handed.parent p).trans (if_neg neO)
  · exact (handed.children p).trans (if_neg neF)

/-- The owner has the following one as its first child. -/
theorem holder (handed : HandedOver h h' from_ o l before up nx) (neO : from_ ≠ o) (neL : from_ ≠ l)
    (notBefore : before ≠ some from_) (notNext : nx ≠ some from_) :
    h'.node from_ = { h.node from_ with children := nx } := by
  refine node_ext (handed.content from_).1 (handed.content from_).2 ?_ ?_ ?_ ?_
  · rw [handed.next, if_neg neL, if_neg neO, if_neg notBefore]
  · rw [handed.prev, if_neg neO, if_neg notNext]
  · rw [handed.parent, if_neg neO]
  · rw [handed.children, if_pos rfl]

/-- The last node of the other list is followed by it. -/
theorem end_ (handed : HandedOver h h' from_ o l before up nx) (ne : l ≠ o) (neF : l ≠ from_)
    (notNext : nx ≠ some l) : h'.node l = { h.node l with next := some o } := by
  refine node_ext (handed.content l).1 (handed.content l).2 ?_ ?_ ?_ ?_
  · rw [handed.next, if_pos rfl]
  · rw [handed.prev, if_neg ne, if_neg notNext]
  · rw [handed.parent, if_neg ne]
  · rw [handed.children, if_neg neF]

/-- The node itself. -/
theorem node (handed : HandedOver h h' from_ o l before up nx) (ne : o ≠ l) (neF : o ≠ from_) :
    (h'.node o).prev = some l ∧ (h'.node o).next = none ∧ (h'.node o).parent = up ∧
      (h'.node o).children = (h.node o).children := by
  refine ⟨?_, ?_, ?_, ?_⟩
  · rw [handed.prev, if_pos rfl]
  · rw [handed.next, if_neg ne, if_pos rfl]
  · rw [handed.parent, if_pos rfl]
  · rw [handed.children, if_neg neF]

end HandedOver

/-- The links after a node was handed over. -/
theorem kept_links (a : Lists nm h from_ owner prev up (.cons o k r) target)
    (out : ∀ p, prev = some p → p ∉ from_ :: ((Forest.cons o k r).ids ++ target.ids))
    (mem : last ∈ target.tops) (end_ : target.tops.getLast? = some l) :
    HandedOver h (Merged.kept h from_ last o r) from_ o l prev up r.head? := by
  obtain ⟨cell, ⟨⟨before, after, above, _⟩, _, _⟩, linked, nodup, below, _⟩ := a
  obtain ⟨absent, nodup⟩ := List.nodup_cons.mp nodup
  obtain ⟨nodupOld, nodupNew, disjoint⟩ := List.nodup_append.mp nodup
  obtain ⟨absentO, _⟩ := List.nodup_cons.mp nodupOld
  have head {n : Nat} (eq : r.head? = some n) : n ∈ r.ids :=
    Forest.mem_ids_of_mem_tops (List.mem_of_head? ((Forest.head?_eq r).symm.trans eq))
  have self : (h.node o).next ≠ some o := by
    rw [after]
    exact fun eq => absentO (List.mem_append_right _ (head eq))
  have fields := Nodes.nodeUnlink_links self
  rw [before, after, above] at fields
  have outO : o ∉ target.ids := fun mem => disjoint o (by simp) o mem rfl
  -- the target is as it was
  have linked' : Linked (h.nodeUnlink o) up none target := by
    refine linked.links fun j mem => ?_
    obtain ⟨next, prev', parent, children⟩ := fields j
    have notO : j ≠ o := fun eq => outO (eq ▸ mem)
    have notP : prev ≠ some j := fun eq => out j eq (by simp [mem])
    have notN : r.head? ≠ some j := fun eq => disjoint j (by simp [head eq]) j mem rfl
    have notF : owner ≠ some j := by
      rintro rfl
      rcases cell with eq | eq
      · exact absent (List.mem_append_right _ (Option.some.inj eq ▸ mem))
      · cases eq
    constructor <;> grind
  have size : (h.nodeUnlink o).size = h.size := size_nodeUnlink h o
  have last_eq : (h.nodeUnlink o).gnodeLast last = l := by
    obtain ⟨prev', rest, chain', part, end'⟩ := linked'.chain.from_mem mem
    have short := length_le_of_below (Forest.nodup_tops nodupNew) fun i mem =>
      below i (List.mem_append_right _ (Forest.mem_ids_of_mem_tops mem))
    have fewer := part.length_le
    refine lastLoop_chain chain' (end'.trans end_) ?_
    rw [size]
    simp only [List.length_cons] at fewer
    omega
  have memL := Forest.mem_ids_of_mem_tops (List.mem_of_getLast? end_)
  have ne : o ≠ l := fun eq => outO (eq ▸ memL)
  have final := linked'.chain.last end_
  have parentL := linked'.chain.parent (List.mem_of_getLast? end_)
  have added : (h.nodeUnlink o).gnodeAdd last o = (h.nodeUnlink o).gnodeAfter l o := by
    rw [Nodes.gnodeAdd, last_eq]
  have fields' := Nodes.gnodeAfter_links (h := h.nodeUnlink o) ne
  rw [final, parentL] at fields'
  have notL : owner ≠ some l := by
    rintro rfl
    rcases cell with eq | eq
    · exact absent (List.mem_append_right _ (Option.some.inj eq ▸ memL))
    · cases eq
  simp only [Merged.kept, added]
  have content := (sameContent_nodeUnlink h o).trans (sameContent_gnodeAfter _ ne)
  refine ⟨content.setChildren from_ _, ?_, fun j => ?_, fun j => ?_, fun j => ?_, fun j => ?_⟩
  · rw [Nodes.size_setChildren, Nodes.gnodeAfter_size, size]
  · rw [Nodes.next_setChildren]
    have unlinked := fields j
    have added := fields' j
    grind
  · rw [Nodes.prev_setChildren]
    have unlinked := fields j
    have added := fields' j
    grind
  · rw [Nodes.parent_setChildren]
    have unlinked := fields j
    have added := fields' j
    grind
  · rw [Nodes.children_setChildren]
    have unlinked := fields j
    have added := fields' j
    grind

/-- A list whose first node gets another one before it. -/
theorem Linked.rehead {f : Forest} {prev' : Option Nat} (l : Linked h up prev f)
    (nodup : f.ids.Nodup) (same : ∀ i ∈ f.ids, (h'.node i).next = (h.node i).next ∧
      (h'.node i).prev = (if f.head? = some i then prev' else (h.node i).prev) ∧
      (h'.node i).parent = (h.node i).parent ∧ (h'.node i).children = (h.node i).children) :
    Linked h' up prev' f := by
  cases f with
  | nil => trivial
  | cons i kids rest =>
      obtain ⟨⟨_, after, above, children⟩, below, more⟩ := l
      obtain ⟨absent, _⟩ := List.nodup_cons.mp nodup
      have others : ∀ j ∈ kids.ids ++ rest.ids, SameLinks (h.node j) (h'.node j) := by
        intro j mem
        obtain ⟨next, prev', parent, children'⟩ := same j (List.mem_cons_of_mem i mem)
        have ne : ¬ (Forest.cons i kids rest).head? = some j := by
          intro eq
          obtain rfl : i = j := Option.some.inj eq
          exact absent mem
        rw [if_neg ne] at prev'
        exact ⟨next, prev', parent, children'⟩
      obtain ⟨next, before, parent, children'⟩ := same i (by simp)
      have first : (Forest.cons i kids rest).head? = some i := rfl
      simp only [first, if_true] at before
      exact ⟨⟨before, next.trans after, parent.trans above, children'.trans children⟩,
        below.links fun j mem => others j (List.mem_append_left _ mem),
        more.links fun j mem => others j (List.mem_append_right _ mem)⟩

/-- After a node was handed over the rest of the list can be moved. -/
theorem kept_ready (a : Lists nm h from_ owner prev up (.cons o k r) target)
    (out : ∀ p, prev = some p → p ∉ from_ :: ((Forest.cons o k r).ids ++ target.ids))
    (mem : last ∈ target.tops) :
    Lists nm (Merged.kept h from_ last o r) from_ owner prev up r (target.append (.cons o k .nil)) ∧
      (∀ p, prev = some p → p ∉ from_ :: (r.ids ++ (target.append (.cons o k .nil)).ids)) ∧
      (∀ i, i ≠ from_ → i ∉ (Forest.cons o k r).ids → i ∉ target.ids → prev ≠ some i →
        (Merged.kept h from_ last o r).node i = h.node i) ∧
      (∀ p, prev = some p → (Merged.kept h from_ last o r).node p =
        { h.node p with next := ((Merged.kept h from_ last o r).node p).next }) ∧
      (Merged.kept h from_ last o r).node from_ = { h.node from_ with children := r.head? } ∧
      SameContent h (Merged.kept h from_ last o r) ∧
      (Merged.kept h from_ last o r).size = h.size := by
  obtain ⟨l, end_⟩ : ∃ l, target.tops.getLast? = some l :=
    Option.isSome_iff_exists.mp (List.getLast?_isSome.mpr (List.ne_nil_of_mem mem))
  have handed := kept_links a out mem end_
  obtain ⟨cell, ⟨⟨before, after, above, children⟩, belowO, more⟩, linked, nodup, below, idents⟩ := a
  generalize Merged.kept h from_ last o r = h₁ at handed ⊢
  obtain ⟨absent, nodupBoth⟩ := List.nodup_cons.mp nodup
  obtain ⟨nodupOld, nodupNew, disjoint⟩ := List.nodup_append.mp nodupBoth
  obtain ⟨absentO, nodupKR⟩ := List.nodup_cons.mp nodupOld
  obtain ⟨nodupK, nodupR, disjointKR⟩ := List.nodup_append.mp nodupKR
  have head {n : Nat} (eq : r.head? = some n) : n ∈ r.ids :=
    Forest.mem_ids_of_mem_tops (List.mem_of_head? ((Forest.head?_eq r).symm.trans eq))
  have memL := Forest.mem_ids_of_mem_tops (List.mem_of_getLast? end_)
  have perm : (r.ids ++ (target.append (.cons o k .nil)).ids).Perm
      ((Forest.cons o k r).ids ++ target.ids) := by
    rw [List.perm_iff_count]
    intro i
    simp only [Forest.ids_append, Forest.ids_cons, Forest.ids_nil, List.append_nil, List.count_cons,
      List.count_append]
    omega
  have inR {i : Nat} (mem : i ∈ r.ids) : i ≠ o ∧ i ≠ l ∧ i ≠ from_ ∧ prev ≠ some i := by
    refine ⟨?_, ?_, ?_, fun eq => out i eq (by simp [mem])⟩
    · rintro rfl
      exact absentO (List.mem_append_right _ mem)
    · rintro rfl
      exact disjoint i (by simp [mem]) i memL rfl
    · rintro rfl
      exact absent (by simp [mem])
  have once := (perm.cons from_).nodup_iff.mpr nodup
  have outF := absent
  simp only [Forest.ids_cons, List.mem_cons, List.mem_append, not_or] at outF
  have neL : o ≠ l := fun eq => disjoint o (by simp) l memL eq
  have neF : l ≠ from_ := by
    rintro rfl
    exact outF.2 memL
  refine ⟨⟨cell, ?_, ?_, once, ?_, fun i => (handed.content i).1.trans (idents i)⟩, ?_, ?_, ?_, ?_,
    handed.content, handed.size⟩
  · refine more.rehead nodupR fun i mem => ?_
    obtain ⟨neO, neL, neF, neP⟩ := inR mem
    rw [handed.next, handed.prev, handed.parent, handed.children, if_neg neL, if_neg neO, if_neg neP,
      if_neg neO, if_neg neO, if_neg neF]
    exact ⟨rfl, rfl, rfl, rfl⟩
  · refine linked.extend end_ belowO ?_ ?_ ?_ fun i mem neL => ?_
    · refine (List.Perm.nodup_iff List.perm_append_comm).mp ?_
      refine List.Sublist.nodup ?_ nodupBoth
      exact List.Sublist.append_right (List.Sublist.cons_cons o (List.sublist_append_left _ _)) _
    · exact handed.end_ neL.symm neF fun eq => disjoint l (by simp [head eq]) l memL rfl
    · rw [← children]
      exact handed.node neL (Ne.symm outF.1.1)
    · rcases List.mem_append.mp mem with mem | mem
      · refine handed.same ?_ neL ?_ (fun eq => out i eq (by simp [mem]))
          fun eq => disjoint i (by simp [head eq]) i mem rfl
        · rintro rfl
          exact disjoint i (by simp) i mem rfl
        · rintro rfl
          exact outF.2 mem
      · refine handed.same ?_ neL ?_ (fun eq => out i eq (by simp [mem]))
          fun eq => disjointKR i mem i (head eq) rfl
        · rintro rfl
          exact absentO (List.mem_append_left _ mem)
        · rintro rfl
          exact outF.1.2.1 mem
  · intro i mem
    rw [handed.size]
    exact below i (perm.subset mem)
  · exact fun p eq mem => out p eq ((perm.cons from_).subset mem)
  · intro i neF outO outT neP
    simp only [Forest.ids_cons, List.mem_cons, List.mem_append, not_or] at outO
    refine handed.same outO.1 ?_ neF neP fun eq => outO.2.2 (head eq)
    rintro rfl
    exact outT memL
  · intro p eq
    have outP := out p eq
    simp only [Forest.ids_cons, List.mem_cons, List.mem_append, not_or] at outP
    exact handed.same_before outP.2.1.1 outP.1 fun eq => outP.2.1.2.2 (head eq)
  · exact handed.holder outF.1.1 neF.symm (fun eq => out from_ eq (by simp)) fun eq =>
      outF.1.2.2 (head eq)

end Kept

namespace Merged

variable {from_ o c : Nat} {owner : Option Nat} {k r new moved below : Forest} {h₁ : Nodes}

theorem nothing (target : Linked h up none (new.append moved)) :
    Merged nm h h from_ owner prev up .nil new moved where
  source := trivial
  target := by simpa [absorb, unmatched] using target
  same := fun _ _ _ _ => rfl
  owner := rfl
  matched := fun _ => rfl
  first := fun _ head => head
  content := fun _ => ⟨rfl, rfl⟩
  size := rfl

/-- The owner, the old node, the rest of the list, the merged nodes and what is left below
    the old node are apart. -/
theorem parted (a : Lists nm h from_ owner prev up (.cons o k r) (new.append moved))
    (found : new.kidsOf nm (nm o) = some below) :
    ((from_ :: o :: r.ids) ++ (((new.update nm (nm o) (k.merge nm)).append moved).ids ++
        (k.left nm below).ids)).Nodup ∧
      (((new.update nm (nm o) (k.merge nm)).append moved).ids ++ (k.left nm below).ids).Perm
        ((new.append moved).ids ++ k.ids) := by
  have perm := update_perm (f := k.merge nm) (kidsOf_append moved found) (merge_perm k below)
  rw [update_append moved found] at perm
  refine ⟨(List.Perm.nodup_iff (perm.append_left (from_ :: o :: r.ids))).mpr ?_, perm⟩
  refine (List.Perm.nodup_iff ?_).mp a.nodup
  refine List.Perm.cons from_ (List.Perm.cons o ?_)
  have swap : (k.ids ++ r.ids ++ (new.append moved).ids).Perm
      (r.ids ++ k.ids ++ (new.append moved).ids) := List.perm_append_comm.append_right _
  refine swap.trans ?_
  rw [List.append_assoc]
  exact List.perm_append_comm.append_left _

/-- The nodes below an old node were moved, and the rest of the list is moved next. -/
theorem ready (a : Lists nm h from_ owner prev up (.cons o k r) (new.append moved))
    (found : new.kidsOf nm (nm o) = some below)
    (find : named nm (nm o) (new.append moved).tops = some c) (head : k = .nil ∨ below ≠ .nil)
    (inner : Merged nm h h₁ o (some o) none (some c) k below .nil) :
    Lists nm h₁ from_ owner (some o) up r ((new.update nm (nm o) (k.merge nm)).append moved) ∧
      ((new.update nm (nm o) (k.merge nm)).append moved).head? = (new.append moved).head? := by
  have found' := kidsOf_append moved found
  obtain ⟨absent, nodup⟩ := List.nodup_cons.mp a.nodup
  obtain ⟨nodupOld, nodupNew, disjoint⟩ := List.nodup_append.mp nodup
  obtain ⟨absentO, nodupKR⟩ := List.nodup_cons.mp nodupOld
  obtain ⟨_, _, disjointKR⟩ := List.nodup_append.mp nodupKR
  obtain ⟨_, _, _, _, _, _, _, part⟩ := a.newLinked.kidsOf found' nodupNew
  have apart_o : ∀ i ∈ (new.append moved).ids, i ≠ o := by
    rintro i mem rfl
    exact disjoint i (by simp) i mem rfl
  have same : ∀ i, i ≠ o → i ∉ k.ids → i ∉ below.ids → h₁.node i = h.node i := by
    intro i ne out out'
    exact inner.same i ne out (by simpa using out')
  obtain ⟨split, perm⟩ := parted a found
  refine ⟨⟨a.cell, ?_, ?_, ?_, ?_, ?_⟩, ?_⟩
  · refine a.oldLinked.2.2.congr fun i mem => same i ?_ ?_ ?_
    · rintro rfl
      exact absentO (List.mem_append_right _ mem)
    · exact fun mem' => disjointKR i mem' i mem rfl
    · exact fun mem' => disjoint i (by simp [mem]) i (part i mem') rfl
  · rw [← update_append moved found]
    refine a.newLinked.update found' nodupNew find ?_ ?_ fun i mem out =>
      same i (apart_o i mem) ?_ out
    · exact inner.target
    · rcases head with rfl | some
      · rw [merge_nil]
      · exact head?_merge some
    · exact fun mem' => disjoint i (by simp [mem']) i mem rfl
  · have part : (from_ :: (r.ids ++ ((new.update nm (nm o) (k.merge nm)).append moved).ids)).Sublist
        ((from_ :: o :: r.ids) ++ (((new.update nm (nm o) (k.merge nm)).append moved).ids ++
          (k.left nm below).ids)) := by
      refine List.Sublist.cons_cons from_ (List.Sublist.cons o ?_)
      exact List.Sublist.append_left (List.sublist_append_left _ _) _
    exact part.nodup split
  · intro i mem
    rw [inner.size]
    rcases List.mem_append.mp mem with mem | mem
    · exact a.below i (by simp [mem])
    · have mem' := perm.subset (List.mem_append_left _ mem)
      rcases List.mem_append.mp mem' with mem | mem
      · exact a.below i (List.mem_append_right _ mem)
      · exact a.below i (by simp [mem])
  · intro i
    rw [(inner.content i).1]
    exact a.idents i
  · rw [head?_eq, head?_eq, tops_append, tops_update, tops_append]

/-- An old node with a counterpart stays, and is superseded. -/
theorem match_step (a : Lists nm h from_ owner prev up (.cons o k r) (new.append moved))
    (found : new.kidsOf nm (nm o) = some below)
    (inner : Merged nm h h₁ o (some o) none (some c) k below .nil)
    (all : ∀ x ∈ r.tops, nm x ∈ new.names nm)
    (outer : Merged nm h₁ h' from_ owner (some o) up r (new.update nm (nm o) (k.merge nm)) moved) :
    Merged nm h h' from_ owner prev up (.cons o k r) new moved := by
  obtain ⟨⟨before, after, above, children⟩, _, _⟩ := a.oldLinked
  obtain ⟨split, perm⟩ := parted a found
  obtain ⟨absent, nodup⟩ := List.nodup_cons.mp a.nodup
  obtain ⟨nodupOld, nodupNew, disjoint⟩ := List.nodup_append.mp nodup
  obtain ⟨_, _, _, _, _, _, _, part⟩ := a.newLinked.kidsOf (kidsOf_append moved found) nodupNew
  obtain ⟨nodupFront, _, disjoint'⟩ := List.nodup_append.mp split
  obtain ⟨absentFrom, nodupFront⟩ := List.nodup_cons.mp nodupFront
  obtain ⟨absentO, _⟩ := List.nodup_cons.mp nodupFront
  have ne : o ≠ from_ := fun eq => absentFrom (by simp [eq])
  have out_o : o ∉ ((new.update nm (nm o) (k.merge nm)).append moved).ids := fun mem =>
    disjoint' o (by simp) o (List.mem_append_left _ mem) rfl
  have present : nm o ∈ new.names nm := by
    by_contra absent
    rw [kidsOf_eq_none.mpr absent] at found
    cases found
  have all' : ∀ x ∈ r.tops, nm x ∈ (new.update nm (nm o) (k.merge nm)).names nm := by
    intro x mem
    rw [names_update]
    exact all x mem
  have owner₁ : h₁.node from_ = h.node from_ := by
    refine inner.same from_ ne.symm (fun mem => absent (by simp [mem])) fun mem => absent ?_
    rw [append_nil] at mem
    exact List.mem_append_right _ (part from_ mem)
  have left_eq : (Forest.cons o k r).left nm new =
      .cons o (k.left nm below) (r.left nm (new.update nm (nm o) (k.merge nm))) := by
    conv_lhs => unfold Forest.left
    simp only [found]
  have kept : (h'.node from_).children = (h.node from_).children := by
    rw [outer.matched all', owner₁]
  refine ⟨?_, ?_, ?_, ?_, fun _ => kept, ?_, ?_, outer.size.trans inner.size⟩
  · rw [left_eq]
    refine ⟨?_, inner.source.congr fun i mem => outer.same i ?_ ?_ ?_, outer.source⟩
    · rw [outer.same o ne absentO out_o, inner.owner]
      refine ⟨before, ?_, above, inner.first rfl children⟩
      simp only
      rw [after, head?_eq, head?_eq, tops_left all']
    · rintro rfl
      exact disjoint' i (by simp) i (List.mem_append_right _ mem) rfl
    · exact fun mem' => disjoint' i (by simp [mem']) i (List.mem_append_right _ mem) rfl
    · exact fun mem' => (List.nodup_append.mp (List.nodup_append.mp split).2.1).2.2 i mem' i mem rfl
  · have taken := outer.target
    rw [names_update] at taken
    rw [absorb_cons]
    conv in unmatched _ _ (Forest.cons o k r) => unfold Forest.unmatched
    rw [if_pos present]
    exact taken
  · intro i ne_from out out'
    simp only [ids_cons, List.mem_cons, List.mem_append, not_or] at out
    obtain ⟨ne_o, out_k, out_r⟩ := out
    have out'' : i ∉ ((new.update nm (nm o) (k.merge nm)).append moved).ids := by
      intro mem
      rcases List.mem_append.mp (perm.subset (List.mem_append_left _ mem)) with mem | mem
      · exact out' mem
      · exact out_k mem
    rw [outer.same i ne_from out_r out'']
    refine inner.same i ne_o out_k fun mem => out' ?_
    rw [append_nil] at mem
    exact part i mem
  · rw [outer.owner, owner₁]
  · intro _ head
    rw [left_eq, kept, head]
    rfl
  · intro i
    exact ⟨(outer.content i).1.trans (inner.content i).1,
      (outer.content i).2.trans (inner.content i).2⟩

/-- An old node without counterpart is kept behind the new ones. -/
theorem keep_step {last : Nat} (a : Lists nm h from_ owner none up (.cons o k r) (new.append moved))
    (mem : last ∈ (new.append moved).tops) (lone : new.kidsOf nm (nm o) = none)
    (outer : Merged nm (kept h from_ last o r) h' from_ owner none up r new
      (moved.append (.cons o k .nil))) :
    Merged nm h h' from_ owner none up (.cons o k r) new moved := by
  obtain ⟨_, _, same, _, owner, content, size⟩ := kept_ready a (fun _ none => by cases none) mem
  have absent := kidsOf_eq_none.mp lone
  have left_eq : (Forest.cons o k r).left nm new = r.left nm new := by
    conv_lhs => unfold Forest.left
    simp only [lone]
  refine ⟨?_, ?_, ?_, ?_, ?_, ?_, ?_, outer.size.trans size⟩
  · rw [left_eq]
    exact outer.source
  · rw [absorb_cons, update_none lone]
    conv in unmatched _ _ (Forest.cons o k r) => unfold Forest.unmatched
    rw [if_neg absent]
    have taken := outer.target
    rw [append_assoc, cons_append, nil_append] at taken
    exact taken
  · intro i ne_from out out'
    rw [outer.same i ne_from (fun mem => out (by simp [mem])) ?_, same i ne_from out out' fun none => by cases none]
    rw [← append_assoc, ids_append]
    simp only [ids_cons, ids_nil, List.append_nil, List.mem_append, List.mem_cons, not_or] at out ⊢
    exact ⟨by simpa [ids_append] using out', out.1, out.2.1⟩
  · rw [outer.owner, owner]
  · intro all
    exact absurd (all o (by simp)) absent
  · intro _ _
    rw [left_eq]
    exact outer.first rfl (by rw [owner])
  · intro i
    exact ⟨(outer.content i).1.trans (content i).1, (outer.content i).2.trans (content i).2⟩

end Merged

/-- The move of a list. -/
theorem moveLoop_merged (old : Forest) {fuel from_ dst last : Nat} {owner : Option Nat}
    {new moved : Forest}
    (a : Lists nm h from_ owner prev up old (new.append moved))
    (head : (new.append moved).head? = some dst) (mem : last ∈ (new.append moved).tops)
    (fine : old.Fine nm new) (others : ∀ o ∈ old.tops, nm o ∉ moved.names nm)
    (start : (∀ o ∈ old.tops, nm o ∈ new.names nm) ∨ prev = none) (enough : old.ids.length ≤ fuel)
    (move : Nat) :
    ∃ h', Nodes.moveLoop fuel h from_ dst last old.head? move = (h', move + old.moves nm new) ∧
      Merged nm h h' from_ owner prev up old new moved := by
  induction old generalizing fuel h from_ dst last owner new moved prev up move with
  | nil =>
      refine ⟨h, ?_, .nothing a.newLinked⟩
      cases fuel <;> rfl
  | cons o k r ihk ihr =>
      cases fuel with
      | zero => exact absurd enough (by simp)
      | succ fuel =>
          simp only [ids_cons, List.length_cons, List.length_append] at enough
          have enoughK : k.ids.length ≤ fuel := by omega
          have enoughR : r.ids.length ≤ fuel := by omega
          have nodupNew := (List.nodup_append.mp (List.nodup_cons.mp a.nodup).2).2.1
          obtain ⟨⟨before, after, above, children⟩, belowO, _⟩ := a.oldLinked
          have locate := nodeLocate_eq a.idents a.newLinked head nodupNew
            (fun i mem => a.below i (List.mem_append_right _ mem)) (nm o)
          unfold Forest.Fine at fine
          rw [Forest.head?, Nodes.moveLoop, a.idents o, locate]
          cases found : new.kidsOf nm (nm o) with
          | none =>
              simp only [found] at fine
              have absent := kidsOf_eq_none.mp found
              have none : named nm (nm o) (new.append moved).tops = none := by
                rw [tops_append, named_append, named_none absent,
                  named_none (others o (by simp))]
                rfl
              have start' : prev = Option.none :=
                start.resolve_left fun all => absent (all o (by simp))
              subst start'
              obtain ⟨a', _⟩ := kept_ready a (fun _ none => by cases none) mem
              rw [append_assoc] at a'
              obtain ⟨h', run, outer⟩ := ihr a' (by
                  rw [← append_assoc, head?_eq, tops_append, List.head?_append, ← head?_eq, head]
                  rfl)
                (show o ∈ (new.append (moved.append (.cons o k .nil))).tops by simp) fine.2
                (fun x mem => by
                  simp only [names, tops_append, List.map_append, List.mem_append, tops_cons,
                    tops_nil, List.map_cons, List.map_nil, List.mem_singleton, not_or]
                  refine ⟨others x (by simp [mem]), fun same => fine.1 ?_⟩
                  exact List.mem_map.mpr ⟨x, mem, same⟩)
                (.inr rfl) enoughR (move + 1)
              refine ⟨h', ?_, .keep_step a mem found outer⟩
              simp only [none, after, Forest.moves, found]
              refine run.trans ?_
              rw [Nat.add_assoc, Nat.add_comm 1]
          | some below =>
              simp only [found] at fine
              obtain ⟨kidsFine, all, rest⟩ := fine
              obtain ⟨c, find, _, childrenC, _, inner⟩ := a.kids (kidsOf_append moved found)
              have present : ∀ x ∈ r.tops, nm x ∈ (new.update nm (nm o) (k.merge nm)).names nm := by
                intro x mem
                rw [names_update]
                exact all x mem
              have finish : ∀ h₁, (k = .nil ∨ below ≠ .nil) →
                  Merged nm h h₁ o (some o) none (some c) k below .nil → ∀ move, ∃ h',
                    Nodes.moveLoop fuel h₁ from_ dst last r.head? move =
                      (h', move + r.moves nm (new.update nm (nm o) (k.merge nm))) ∧
                    Merged nm h h' from_ owner prev up (.cons o k r) new moved := by
                intro h₁ filled inner move
                obtain ⟨a', head'⟩ := inner.ready a found find filled
                have mem' : last ∈ ((new.update nm (nm o) (k.merge nm)).append moved).tops := by
                  rw [tops_append, tops_update, ← tops_append]
                  exact mem
                obtain ⟨h', run, outer⟩ := ihr a' (head'.trans head) mem' rest
                  (fun x mem => others x (by simp [mem])) (.inl present) enoughR move
                exact ⟨h', run, .match_step a found inner all outer⟩
              simp only [find, children]
              cases k with
              | nil =>
                  obtain ⟨h', run, outer⟩ := finish h (.inl rfl)
                    (.nothing (by simpa using inner.newLinked)) move
                  refine ⟨h', ?_, outer⟩
                  simp only [Forest.head?, after, Forest.moves, found, Nat.zero_add]
                  exact run
              | cons i ks kr =>
                  obtain ⟨filled, fineK⟩ := kidsFine.resolve_left (by simp)
                  cases below with
                  | nil => exact absurd rfl filled
                  | cons j bs br =>
                      rw [← append_nil (.cons j bs br)] at inner
                      obtain ⟨h₁, run₁, moved₁⟩ := ihk inner rfl
                        (show j ∈ ((Forest.cons j bs br).append .nil).tops by simp) fineK
                        (fun x _ => by simp [names]) (.inr rfl) enoughK move
                      have next : (h₁.node o).next = r.head? := by
                        rw [moved₁.owner]
                        exact after
                      obtain ⟨h', run, outer⟩ := finish h₁ (.inr filled) moved₁
                        (move + (Forest.cons i ks kr).moves nm (.cons j bs br))
                      refine ⟨h', ?_, outer⟩
                      simp only [Forest.head?] at run₁
                      simp only [childrenC, Forest.head?, run₁, next]
                      refine run.trans ?_
                      conv_rhs => unfold Forest.moves
                      simp only [found, Nat.add_assoc]

/-- The move of a list that a node has below it. -/
theorem moveLoop_moved (old : Forest) {fuel from_ dst last : Nat} {new moved : Forest}
    (a : Apart nm h from_ prev up old (new.append moved))
    (head : (new.append moved).head? = some dst) (mem : last ∈ (new.append moved).tops)
    (fine : old.Fine nm new) (others : ∀ o ∈ old.tops, nm o ∉ moved.names nm)
    (start : (∀ o ∈ old.tops, nm o ∈ new.names nm) ∨ prev = none) (enough : old.ids.length ≤ fuel)
    (move : Nat) :
    ∃ h' move', Nodes.moveLoop fuel h from_ dst last old.head? move = (h', move') ∧
      Moved nm h h' from_ prev up old new moved := by
  obtain ⟨h', run, merged⟩ := moveLoop_merged old
    ⟨.inl rfl, a.oldLinked, a.newLinked, a.nodup, a.below, a.idents⟩ head mem fine others start
    enough move
  exact ⟨h', _, run, merged.source, merged.target, merged.same, merged.owner, merged.matched,
    merged.first, merged.content, merged.size⟩

end Mpt.Tree
