import Mpt.Tree.Place
import Mathlib.Data.List.Pairwise

/-! # The tree after an insertion -/

namespace Mpt.Tree

namespace Forest

/-- A node, with the nodes below it, in a place of the list. -/
def put (f : Forest) (n : Nat) (kn : Forest) (s : Spot) : Forest :=
  match f with
  | nil => nil
  | cons i kids rest =>
      if s = .before i then cons n kn (cons i kids rest)
      else if s = .after i then cons i kids (cons n kn rest)
      else cons i kids (rest.put n kn s)

/-- The node in its place for a position among the nodes that match. -/
def place (g : Forest) (same : Nat → Bool) (pos : Int) (n : Nat) (kn : Forest) : Forest :=
  match spot g.tops (g.tops.filter same) pos with
  | some s => g.put n kn s
  | none => cons n kn nil

/-- Other children for a node. -/
def setKids (f : Forest) (q : Nat) (g : Forest) : Forest :=
  match f with
  | nil => nil
  | cons i kids rest =>
      if i = q then cons i g (rest.setKids q g) else cons i (kids.setKids q g) (rest.setKids q g)

/-- Another list in place of the children of a node, or of a list of nodes with no parent. -/
def regrow (f : Forest) (up : Option Nat) (g g' : Forest) : Forest :=
  match up with
  | some q => f.setKids q g'
  | none => if f = g then g' else f

theorem head_setKids (f : Forest) (q : Nat) (g : Forest) : (f.setKids q g).head? = f.head? := by
  cases f with
  | nil => rfl
  | cons i kids rest =>
      simp only [setKids]
      split <;> rfl

end Forest

section Put

variable {h : Nodes} {up prev : Option Nat} {g kn : Forest} {n x : Nat}

theorem gnodeBefore_same (ne : n ≠ x) {j : Nat} (new : j ≠ n) (old : j ≠ x)
    (before : (h.node x).prev ≠ some j)
    (above : (h.node x).prev = none → (h.node x).parent ≠ some j) :
    SameLinks (h.node j) ((h.gnodeBefore x n).node j) := by
  obtain ⟨next, prev, parent, children⟩ := Nodes.gnodeBefore_links (h := h) ne j
  constructor <;> grind

theorem gnodeAfter_same (ne : n ≠ x) {j : Nat} (new : j ≠ n) (old : j ≠ x)
    (after : (h.node x).next ≠ some j) : SameLinks (h.node j) ((h.gnodeAfter x n).node j) := by
  obtain ⟨next, prev, parent, children⟩ := Nodes.gnodeAfter_links (h := h) ne j
  constructor <;> grind

/-- A node and what is below it, for a list that has none of them. -/
structure Fresh (h : Nodes) (n : Nat) (kn : Forest) (ids : List Nat) : Prop where
  nodup : (n :: kn.ids ++ ids).Nodup
  children : (h.node n).children = kn.head?
  below : Linked h (some n) none kn

theorem Fresh.part {ids ids' : List Nat} (fresh : Fresh h n kn ids) (part : List.Sublist ids' ids) :
    Fresh h n kn ids' where
  nodup := (part.append_left _).nodup fresh.nodup
  children := fresh.children
  below := fresh.below

theorem Fresh.ne {ids : List Nat} (fresh : Fresh h n kn ids) (mem : x ∈ ids) : n ≠ x := by
  rintro rfl
  exact (List.nodup_cons.mp fresh.nodup).1 (List.mem_append_right _ mem)

/-- The list with a node before another one. -/
theorem Linked.put_before (l : Linked h up prev g) (fresh : Fresh h n kn g.ids) (top : x ∈ g.tops)
    (out : ∀ j, prev = some j → j ∉ n :: kn.ids ++ g.ids)
    (out' : ∀ j, up = some j → j ∉ n :: kn.ids ++ g.ids) :
    Linked (h.gnodeBefore x n) up prev (g.put n kn (.before x)) := by
  induction g generalizing prev with
  | nil => cases top
  | cons i kids rest _ ih =>
      have l' := l
      obtain ⟨⟨before, after, above, children⟩, below, more⟩ := l
      have fresh' : Fresh h n kn rest.ids := fresh.part ((List.sublist_append_right _ _).cons i)
      have ne : n ≠ x := fresh.ne (Forest.mem_ids_of_mem_tops top)
      obtain ⟨nodup, childrenN, belowN⟩ := fresh
      have fields := Nodes.gnodeBefore_links (h := h) ne
      have aboveX : (h.node x).parent = up := l'.chain.parent top
      simp only [Forest.put, Spot.before.injEq]
      by_cases here : x = i
      · subst here
        have others {j : Nat} (mem : j ∈ kn.ids ++ (kids.ids ++ rest.ids)) :
            SameLinks (h.node j) ((h.gnodeBefore x n).node j) := by
          refine gnodeBefore_same ne ?_ ?_ ?_ ?_ <;> grind [Forest.ids_cons]
        rw [if_pos rfl]
        refine ⟨?_, belowN.links fun j mem => others (by simp [mem]), ?_,
          below.links fun j mem => others (by simp [mem]),
          more.links fun j mem => others (by simp [mem])⟩
        · obtain ⟨next, prev, parent, children⟩ := fields n
          refine ⟨?_, ?_, ?_, ?_⟩ <;> grind [Forest.head?, Forest.ids_cons]
        · obtain ⟨next, prev, parent, children⟩ := fields x
          refine ⟨?_, ?_, ?_, ?_⟩ <;> grind [Forest.head?, Forest.ids_cons]
      · rw [if_neg here, if_neg (by simp)]
        have top' : x ∈ rest.tops := by
          rcases List.mem_cons.mp top with same | top
          · exact absurd same here
          · exact top
        have inside := Forest.mem_ids_of_mem_tops top'
        have link := fun j => more.prev_mem inside (j := j)
        have some_ : (h.node x).prev ≠ none := more.chain.prev_some top'
        refine ⟨?_, below.links fun j mem => ?_, ih more fresh' top' ?_ ?_⟩
        · obtain ⟨next, prev, parent, children⟩ := fields i
          have head : (rest.put n kn (.before x)).head? =
              if rest.head? = some x then some n else rest.head? := by
            cases rest with
            | nil => rfl
            | cons k ks rs =>
                simp only [Forest.put, Spot.before.injEq, Forest.head?, reduceCtorEq, if_false]
                grind
          have first : rest.head? = some x → (h.node x).prev = some i := by
            intro eq
            cases rest with
            | nil => cases eq
            | cons k ks rs =>
                obtain rfl : k = x := Option.some.inj eq
                exact more.1.1
          rw [head]
          refine ⟨?_, ?_, ?_, ?_⟩ <;> grind [Forest.ids_cons]
        · refine gnodeBefore_same ne ?_ ?_ ?_ ?_ <;> grind [Forest.ids_cons]
        · grind [Forest.ids_cons]
        · grind [Forest.ids_cons]

/-- The list with a node behind another one. -/
theorem Linked.put_after (l : Linked h up prev g) (fresh : Fresh h n kn g.ids) (top : x ∈ g.tops) :
    Linked (h.gnodeAfter x n) up prev (g.put n kn (.after x)) := by
  induction g generalizing prev with
  | nil => cases top
  | cons i kids rest _ ih =>
      have l' := l
      obtain ⟨⟨before, after, above, children⟩, below, more⟩ := l
      have fresh' : Fresh h n kn rest.ids := fresh.part ((List.sublist_append_right _ _).cons i)
      have ne : n ≠ x := fresh.ne (Forest.mem_ids_of_mem_tops top)
      obtain ⟨nodup, childrenN, belowN⟩ := fresh
      have fields := Nodes.gnodeAfter_links (h := h) ne
      have aboveX : (h.node x).parent = up := l'.chain.parent top
      simp only [Forest.put, Spot.after.injEq, reduceCtorEq, if_false]
      by_cases here : x = i
      · subst here
        rw [if_pos rfl]
        have others {j : Nat} (mem : j ∈ kn.ids ++ (kids.ids ++ rest.ids))
            (other : rest.head? ≠ some j) : SameLinks (h.node j) ((h.gnodeAfter x n).node j) := by
          refine gnodeAfter_same ne ?_ ?_ ?_ <;> grind [Forest.ids_cons]
        have head {j : Nat} (eq : rest.head? = some j) : j ∈ rest.ids :=
          Forest.mem_ids_of_mem_tops (List.mem_of_head? ((Forest.head?_eq rest).symm.trans eq))
        refine ⟨?_, below.links fun j mem => others (by simp [mem]) ?_, ?_,
          belowN.links fun j mem => others (by simp [mem]) ?_, ?_⟩
        · obtain ⟨next, prev, parent, children⟩ := fields x
          refine ⟨?_, ?_, ?_, ?_⟩ <;> grind [Forest.head?, Forest.ids_cons]
        · grind [Forest.ids_cons]
        · obtain ⟨next, prev, parent, children⟩ := fields n
          refine ⟨?_, ?_, ?_, ?_⟩ <;> grind [Forest.head?, Forest.ids_cons]
        · grind [Forest.ids_cons]
        · cases rest with
          | nil => trivial
          | cons k ks rs =>
              obtain ⟨⟨before', after', above', children'⟩, below', more'⟩ := more
              have apart := (List.nodup_append.mp nodup).2.1
              refine ⟨?_, below'.links fun j mem => others (by simp [mem]) ?_,
                more'.links fun j mem => others (by simp [mem]) ?_⟩
              · obtain ⟨next, prev, parent, children⟩ := fields k
                refine ⟨?_, ?_, ?_, ?_⟩ <;> grind [Forest.head?, Forest.ids_cons]
              · grind [Forest.head?, Forest.ids_cons]
              · grind [Forest.head?, Forest.ids_cons]
      · rw [if_neg here]
        have top' : x ∈ rest.tops := by
          rcases List.mem_cons.mp top with same | top
          · exact absurd same here
          · exact top
        have inside := Forest.mem_ids_of_mem_tops top'
        have link := fun j => more.next_mem inside (j := j)
        refine ⟨?_, below.links fun j mem => ?_, ih more fresh' top'⟩
        · obtain ⟨next, prev, parent, children⟩ := fields i
          have head : (rest.put n kn (.after x)).head? = rest.head? := by
            cases rest with
            | nil => rfl
            | cons k ks rs =>
                simp only [Forest.put, reduceCtorEq, if_false]
                split <;> rfl
          rw [head]
          refine ⟨?_, ?_, ?_, ?_⟩ <;> grind [Forest.ids_cons]
        · refine gnodeAfter_same ne ?_ ?_ ?_ <;> grind [Forest.ids_cons]

end Put

/-- Neighbours in a list. -/
theorem Chain.next_mem {h : Nodes} {up prev : Option Nat} {is : List Nat} (chain : Chain h up prev is)
    {x t : Nat} (mem : x ∈ is) (next : (h.node x).next = some t) :
    t ∈ is ∧ (h.node t).prev = some x := by
  induction is generalizing prev with
  | nil => cases mem
  | cons i is ih =>
      obtain ⟨_, after, _, rest⟩ := chain
      rcases List.mem_cons.mp mem with rfl | mem
      · cases is with
        | nil => grind
        | cons k is =>
            obtain rfl : k = t := Option.some.inj (after.symm.trans next)
            exact ⟨by simp, rest.1⟩
      · obtain ⟨inside, link⟩ := ih rest mem
        exact ⟨List.mem_cons_of_mem i inside, link⟩

theorem Chain.prev_mem {h : Nodes} {up prev : Option Nat} {is : List Nat} (chain : Chain h up prev is)
    {x p : Nat} (mem : x ∈ is) (before : (h.node x).prev = some p) :
    (is.head? = some x ∧ prev = some p) ∨ (p ∈ is ∧ (h.node p).next = some x) := by
  induction is generalizing prev with
  | nil => cases mem
  | cons i is ih =>
      obtain ⟨first, after, _, rest⟩ := chain
      rcases List.mem_cons.mp mem with rfl | mem
      · exact .inl ⟨rfl, first.symm.trans before⟩
      · rcases ih rest mem with ⟨head, eq⟩ | ⟨inside, link⟩
        · obtain rfl : i = p := Option.some.inj eq
          exact .inr ⟨by simp, after.trans head⟩
        · exact .inr ⟨List.mem_cons_of_mem i inside, link⟩

/-- A list got one more node, and it can be taken out again. -/
structure Inserted (h h' : Nodes) (up : Option Nat) (g g' : Forest) (n : Nat) : Prop where
  list : Linked h' up none g'
  other : ∀ j, j ∉ g.tops → j ≠ n → (h'.node j).next = (h.node j).next ∧
    (h'.node j).prev = (h.node j).prev ∧ (h'.node j).parent = (h.node j).parent ∧
    (h'.node j).children = if up = some j then g'.head? else (h.node j).children
  content : SameContent h h'
  undone : h'.nodeUnlink n = h

section Content

variable (h : Nodes) (x n : Nat)

theorem sameContent_gnodeBefore : SameContent h (h.gnodeBefore x n) := by
  have all := ((((SameContent.refl h).setPrev n (h.node x).prev).setNext n (some x)).setPrev x
    (some n)).setParent n (h.node x).parent
  by_cases eq : n = x
  · rw [Nodes.gnodeBefore, if_pos eq]
    exact SameContent.refl h
  · rw [Nodes.gnodeBefore, if_neg eq]
    simp only [Nodes.parent_setPrev, Nodes.parent_setNext]
    split
    · exact all.setNext _ (some n)
    · split
      · exact all.setChildren _ (some n)
      · exact all

theorem size_gnodeBefore : (h.gnodeBefore x n).size = h.size := by
  by_cases eq : n = x
  · rw [Nodes.gnodeBefore, if_pos eq]
  · rw [Nodes.gnodeBefore, if_neg eq]
    simp only
    split
    · rfl
    · split <;> rfl

variable {x n}

theorem sameContent_gnodeAfter (ne : n ≠ x) : SameContent h (h.gnodeAfter x n) := by
  have all := fun next => ((((SameContent.refl h).setPrev n (some x)).setNext n next).setParent n
    (h.node x).parent).setNext x (some n)
  rw [Nodes.gnodeAfter_eq ne]
  cases (h.node x).next with
  | none => exact all none
  | some t => exact (all (some t)).setPrev t (some n)

variable (n)

/-- The node behind gets another one before it. -/
theorem sameContent_behind : SameContent h (match (h.node n).next with
    | none => h
    | some t => h.setPrev t (h.node n).prev) := by
  cases (h.node n).next with
  | none => exact SameContent.refl h
  | some t => exact (SameContent.refl h).setPrev _ _

theorem size_behind : (match (h.node n).next with
    | none => h
    | some t => h.setPrev t (h.node n).prev).size = h.size := by
  cases (h.node n).next with
  | none => rfl
  | some t => rfl

theorem sameContent_nodeUnlink : SameContent h (h.nodeUnlink n) := by
  rw [Nodes.nodeUnlink_eq]
  have first := sameContent_behind (h := h) n
  simp only
  apply SameContent.setPrev
  apply SameContent.setNext
  apply SameContent.setParent
  split
  · exact first.setNext _ _
  · split
    · exact first.setChildren _ _
    · exact first

theorem size_nodeUnlink : (h.nodeUnlink n).size = h.size := by
  rw [Nodes.nodeUnlink_eq]
  have first := size_behind (h := h) n
  simp only [Nodes.size_setPrev, Nodes.size_setNext, Nodes.size_setParent]
  split
  · exact first
  · split
    · exact first
    · exact first

end Content

section Undo

variable {h : Nodes} {n x : Nat}

/-- A node that is not linked. -/
structure Unlinked (h : Nodes) (n : Nat) : Prop where
  next : (h.node n).next = none
  prev : (h.node n).prev = none
  parent : (h.node n).parent = none

/-- What the neighbours of a node and its parent know of it. -/
structure Around (h : Nodes) (n x : Nat) : Prop where
  next : ∀ t, (h.node x).next = some t → (h.node t).prev = some x ∧ t ≠ n ∧ t ≠ x
  prev : ∀ p, (h.node x).prev = some p → (h.node p).next = some x ∧ p ≠ n ∧ p ≠ x
  parent : ∀ q, (h.node x).parent = some q →
    q ≠ n ∧ ((h.node x).prev = none → (h.node q).children = some x)

theorem gnodeBefore_undone (ne : n ≠ x) (un : Unlinked h n) (around : Around h n x) :
    (h.gnodeBefore x n).nodeUnlink n = h := by
  have fields := Nodes.gnodeBefore_links (h := h) ne
  obtain ⟨next, prev, parent⟩ := around
  obtain ⟨nextN, prevN, parentN, _⟩ := fields n
  have self : ((h.gnodeBefore x n).node n).next ≠ some n := by grind
  have content := (sameContent_gnodeBefore h x n).trans (sameContent_nodeUnlink _ n)
  refine nodes_eq (funext fun j => node_eq (content j) ?_)
    ((size_nodeUnlink _ n).trans (size_gnodeBefore h x n))
  obtain ⟨next', prev', parent', children'⟩ := fields j
  obtain ⟨next'', prev'', parent'', children''⟩ := Nodes.nodeUnlink_links self j
  obtain ⟨unNext, unPrev, unParent⟩ := un
  constructor <;> grind

theorem gnodeAfter_undone (ne : n ≠ x) (un : Unlinked h n) (around : Around h n x) :
    (h.gnodeAfter x n).nodeUnlink n = h := by
  have fields := Nodes.gnodeAfter_links (h := h) ne
  obtain ⟨next, prev, parent⟩ := around
  obtain ⟨nextN, prevN, parentN, _⟩ := fields n
  have self : ((h.gnodeAfter x n).node n).next ≠ some n := by grind
  have content := (sameContent_gnodeAfter h ne).trans (sameContent_nodeUnlink _ n)
  refine nodes_eq (funext fun j => node_eq (content j) ?_)
    ((size_nodeUnlink _ n).trans (Nodes.gnodeAfter_size h x n))
  obtain ⟨next', prev', parent', children'⟩ := fields j
  obtain ⟨next'', prev'', parent'', children''⟩ := Nodes.nodeUnlink_links self j
  obtain ⟨unNext, unPrev, unParent⟩ := un
  constructor <;> grind

end Undo

section Insertions

variable {h h' : Nodes} {up prev : Option Nat} {g g' kn : Forest} {n x : Nat}

/-- What is around a node in a list. -/
theorem Linked.around (l : Linked h up none g) (fresh : Fresh h n kn g.ids) (top : x ∈ g.tops)
    (out : up ≠ some n) (first : ∀ q, up = some q → (h.node q).children = g.head?) :
    Around h n x := by
  have chain := l.chain
  have nodup : g.ids.Nodup := (List.nodup_append.mp fresh.nodup).2.1
  have other {j : Nat} (mem : j ∈ g.tops) : j ≠ n := (fresh.ne (Forest.mem_ids_of_mem_tops mem)).symm
  have self := l.next_self nodup (Forest.mem_ids_of_mem_tops top)
  refine ⟨fun t next => ?_, fun p before => ?_, fun q above => ?_⟩
  · obtain ⟨mem, link⟩ := chain.next_mem top next
    refine ⟨link, other mem, ?_⟩
    rintro rfl
    exact self next
  · rcases chain.prev_mem top before with ⟨_, none⟩ | ⟨mem, link⟩
    · cases none
    · refine ⟨link, other mem, ?_⟩
      rintro rfl
      exact self link
  · have eq : up = some q := (chain.parent top).symm.trans above
    refine ⟨fun same => out (same ▸ eq), fun none => ?_⟩
    rw [first q eq, Forest.head?_eq]
    exact chain.first top none

theorem head_put_before (top : x ∈ g.tops) :
    (g.put n kn (.before x)).head? = if g.head? = some x then some n else g.head? := by
  cases g with
  | nil => cases top
  | cons i kids rest =>
      simp only [Forest.put, Spot.before.injEq, Forest.head?, reduceCtorEq, if_false]
      grind

theorem head_put_after (top : x ∈ g.tops) : (g.put n kn (.after x)).head? = g.head? := by
  cases g with
  | nil => cases top
  | cons i kids rest =>
      simp only [Forest.put, reduceCtorEq, if_false]
      split <;> rfl

theorem gnodeBefore_inserted (l : Linked h up none g) (fresh : Fresh h n kn g.ids)
    (un : Unlinked h n) (top : x ∈ g.tops) (out : ∀ j, up = some j → j ∉ n :: kn.ids ++ g.ids)
    (first : ∀ q, up = some q → (h.node q).children = g.head?) :
    Inserted h (h.gnodeBefore x n) up g (g.put n kn (.before x)) n := by
  have ne := fresh.ne (Forest.mem_ids_of_mem_tops top)
  have around := l.around fresh top (fun eq => out n eq (by simp)) first
  refine ⟨l.put_before fresh top (fun _ eq => by cases eq) out, fun j outside other => ?_,
    sameContent_gnodeBefore h x n, gnodeBefore_undone ne un around⟩
  have chain := l.chain
  have above := chain.parent top
  have head : (h.node x).prev = none ↔ g.head? = some x := by
    constructor
    · intro none
      rw [Forest.head?_eq]
      exact chain.first top none
    · intro eq
      cases g with
      | nil => cases eq
      | cons i kids rest =>
          obtain rfl : i = x := Option.some.inj eq
          exact l.1.1
  have before := fun p => chain.prev_mem top (p := p)
  obtain ⟨next', prev', parent', children'⟩ := Nodes.gnodeBefore_links (h := h) ne j
  rw [head_put_before top, next', prev', parent', children']
  refine ⟨?_, ?_, ?_, ?_⟩ <;> grind

theorem gnodeAfter_inserted (l : Linked h up none g) (fresh : Fresh h n kn g.ids)
    (un : Unlinked h n) (top : x ∈ g.tops) (out : ∀ j, up = some j → j ∉ n :: kn.ids ++ g.ids)
    (first : ∀ q, up = some q → (h.node q).children = g.head?) :
    Inserted h (h.gnodeAfter x n) up g (g.put n kn (.after x)) n := by
  have ne := fresh.ne (Forest.mem_ids_of_mem_tops top)
  have around := l.around fresh top (fun eq => out n eq (by simp)) first
  refine ⟨l.put_after fresh top, fun j outside other => ?_,
    sameContent_gnodeAfter h ne, gnodeAfter_undone ne un around⟩
  have after := fun t => l.chain.next_mem top (t := t)
  obtain ⟨next', prev', parent', children'⟩ := Nodes.gnodeAfter_links (h := h) ne j
  rw [head_put_after top, next', prev', parent', children']
  refine ⟨?_, ?_, ?_, ?_⟩ <;> grind

/-- The only child of a node. -/
theorem child_inserted {q : Nat} (children : (h.node q).children = none) (fresh : Fresh h n kn [])
    (un : Unlinked h n) (out : q ∉ n :: kn.ids) :
    Inserted h ((h.setChildren q (some n)).setParent n (some q)) (some q) .nil (.cons n kn .nil) n := by
  obtain ⟨nodup, childrenN, below⟩ := fresh
  obtain ⟨next, prev, parent⟩ := un
  have ne : q ≠ n := fun eq => out (by simp [eq])
  refine ⟨⟨⟨?_, ?_, ?_, ?_⟩, below.links fun j mem => ?_, trivial⟩, fun j _ other => ?_, ?_, ?_⟩
  · simpa using prev
  · simpa [Forest.head?] using next
  · simp
  · simpa [ne.symm] using childrenN
  · have notN : j ≠ n := by
      rintro rfl
      exact (List.nodup_cons.mp nodup).1 (by simp [mem])
    have notQ : j ≠ q := by
      rintro rfl
      exact out (by simp [mem])
    constructor <;> simp [notN, notQ]
  · simp [other, eq_comm, Forest.head?]
  · exact ((SameContent.refl h).setChildren q _).setParent n _
  · have content : SameContent h ((h.setChildren q (some n)).setParent n (some q)) :=
      ((SameContent.refl h).setChildren q _).setParent n _
    refine nodes_eq (funext fun j => node_eq (content.trans (sameContent_nodeUnlink _ n) j) ?_)
      (size_nodeUnlink _ n)
    obtain ⟨next', prev', parent', children'⟩ := Nodes.nodeUnlink_links
      (h := (h.setChildren q (some n)).setParent n (some q)) (n := n) (by simp [next]) j
    rw [Nodes.next_setParent, Nodes.next_setChildren] at next' children'
    constructor <;> simp_all
    all_goals grind

end Insertions

section Trees

variable {h h' : Nodes} {fs : List Forest} {up : Option Nat} {g g' kn : Forest} {n : Nat}

/-- A well formed set of forests with a list of siblings in it, and a node that is not linked with the
    nodes below it. -/
structure Site (h : Nodes) (fs : List Forest) (up : Option Nat) (g : Forest) (n : Nat) (kn : Forest) :
    Prop where
  linked : ∀ f ∈ fs, Linked h none none f
  nodup : (n :: kn.ids ++ allIds fs).Nodup
  sized : ∀ i ∈ allIds fs, i < h.size
  unlinked : Unlinked h n
  children : (h.node n).children = kn.head?
  below : Linked h (some n) none kn
  top : up = none → g ∈ fs
  child : ∀ q, up = some q →
    q ∈ allIds fs ∧ (h.node q).children = g.head? ∧ Linked h (some q) none g

/-- The list is another one, all other nodes are where they were, and the node can be taken out
    again. -/
structure Placed (h h' : Nodes) (fs : List Forest) (up : Option Nat) (g g' : Forest) (n : Nat)
    (kn : Forest) : Prop where
  linked : ∀ f ∈ fs, Linked h' none none (f.regrow up g g')
  list : Linked h' up none g'
  other : ∀ i, i ∉ n :: kn.ids ++ allIds fs → h'.node i = h.node i
  content : SameContent h h'
  undone : h'.nodeUnlink n = h

/-- A changed list of children in a forest. -/
theorem Linked.setKids {f : Forest} {up prev : Option Nat} {q : Nat} (l : Linked h up prev f)
    (siblings : Linked h (some q) none g) (inserted : Inserted h h' (some q) g g' n)
    (absent : n ∉ f.ids) (out : up ≠ some q) : Linked h' up prev (f.setKids q g') := by
  induction f generalizing up prev with
  | nil => trivial
  | cons i kids rest ihk ihr =>
      obtain ⟨⟨before, after, above, children⟩, below, more⟩ := l
      rw [Forest.ids_cons, List.mem_cons, List.mem_append, not_or, not_or] at absent
      have apart : i ∉ g.tops := by
        intro mem
        exact out (above.symm.trans (siblings.chain.parent mem))
      obtain ⟨next', prev', parent', children'⟩ := inserted.other i apart (Ne.symm absent.1)
      have rest' := ihr more absent.2.2 out
      simp only [Forest.setKids]
      by_cases here : i = q
      · rw [if_pos here]
        rw [if_pos (by rw [here])] at children'
        refine ⟨⟨prev'.trans before, ?_, parent'.trans above, children'⟩, ?_, rest'⟩
        · rw [next', after, Forest.head_setKids]
        · rw [here]
          exact inserted.list
      · have other : some q ≠ some i := fun eq => here (Option.some.inj eq).symm
        rw [if_neg here]
        rw [if_neg other] at children'
        refine ⟨⟨prev'.trans before, ?_, parent'.trans above, ?_⟩,
          ihk below absent.2.1 other.symm, rest'⟩
        · rw [next', after, Forest.head_setKids]
        · rw [children', children, Forest.head_setKids]

/-- Two forests have no nodes in common. -/
theorem allIds_disjoint (nodup : (allIds fs).Nodup) {f g : Forest} (left : f ∈ fs) (right : g ∈ fs)
    (ne : f ≠ g) {i : Nat} (mem : i ∈ f.ids) : i ∉ g.ids := by
  have symm : Std.Symm (Function.onFun List.Disjoint Forest.ids) :=
    ⟨fun _ _ apart _ mem mem' => apart mem' mem⟩
  have apart := (List.nodup_flatMap.mp nodup).2.forall left right ne
  exact fun mem' => apart mem mem'

namespace Site

theorem siblings (s : Site h fs up g n kn) : Linked h up none g := by
  cases up with
  | none => exact s.linked g (s.top rfl)
  | some q => exact (s.child q rfl).2.2

/-- The siblings are part of the forests. -/
theorem part (s : Site h fs up g n kn) : List.Sublist g.ids (allIds fs) := by
  have lift {f : Forest} (inside : f ∈ fs) : List.Sublist f.ids (allIds fs) := by
    obtain ⟨front, back, eq⟩ := List.append_of_mem inside
    rw [eq, allIds, List.flatMap_append, List.flatMap_cons]
    exact (List.sublist_append_left _ _).trans (List.sublist_append_right _ _)
  cases up with
  | none => exact lift (s.top rfl)
  | some q =>
      obtain ⟨mem, children, linked⟩ := s.child q rfl
      obtain ⟨f, inside, mem⟩ := List.mem_flatMap.mp mem
      have sub := (s.linked f inside).below mem children linked
      exact ((List.sublist_cons_self q g.ids).trans sub).trans (lift inside)

theorem fresh (s : Site h fs up g n kn) : Fresh h n kn g.ids :=
  Fresh.part ⟨s.nodup, s.children, s.below⟩ s.part

theorem out (s : Site h fs up g n kn) (j : Nat) (eq : up = some j) : j ∉ n :: kn.ids ++ g.ids := by
  obtain ⟨mem, children, linked⟩ := s.child j eq
  obtain ⟨f, inside, mem'⟩ := List.mem_flatMap.mp mem
  have sub := (s.linked f inside).below mem' children linked
  have nodup := List.nodup_append.mp s.nodup
  have nodupF := (List.nodup_flatMap.mp nodup.2.1).1 f inside
  intro bad
  rcases List.mem_append.mp bad with bad | bad
  · exact nodup.2.2 j bad j mem rfl
  · exact (List.nodup_cons.mp (sub.nodup nodupF)).1 bad

theorem enough (s : Site h fs up g n kn) : g.tops.length ≤ h.size :=
  length_le_of_below (Forest.nodup_tops (List.nodup_append.mp s.fresh.nodup).2.1) fun i mem =>
    s.sized i (s.part.subset (Forest.mem_ids_of_mem_tops mem))

/-- A list in a tree may be exchanged for one with one more node. -/
theorem placed (s : Site h fs up g n kn) (inserted : Inserted h h' up g g' n) :
    Placed h h' fs up g g' n kn := by
  have absent {f : Forest} (inside : f ∈ fs) : n ∉ f.ids := fun mem =>
    (List.nodup_append.mp s.nodup).2.2 n (by simp) n (List.mem_flatMap.mpr ⟨f, inside, mem⟩) rfl
  refine ⟨fun f inside => ?_, inserted.list, fun i out => ?_, inserted.content, inserted.undone⟩
  · cases up with
    | some q => exact (s.linked f inside).setKids s.siblings inserted (absent inside) (by simp)
    | none =>
        simp only [Forest.regrow]
        by_cases same : f = g
        · rw [if_pos same]
          exact inserted.list
        · rw [if_neg same]
          have apart {i : Nat} (mem : i ∈ f.ids) : i ∉ g.ids :=
            allIds_disjoint (List.nodup_append.mp s.nodup).2.1 inside (s.top rfl) same mem
          refine (s.linked f inside).links fun i mem => ?_
          have outside : i ∉ g.tops := fun top => apart mem (Forest.mem_ids_of_mem_tops top)
          have other : i ≠ n := fun eq => absent inside (eq ▸ mem)
          obtain ⟨next', prev', parent', children'⟩ := inserted.other i outside other
          rw [if_neg (by simp)] at children'
          exact ⟨next', prev', parent', children'⟩
  · have outside : i ∉ g.tops := fun mem => out
      (List.mem_append_right _ (s.part.subset (Forest.mem_ids_of_mem_tops mem)))
    have other : i ≠ n := fun eq => out (by simp [eq])
    have parent : up ≠ some i := fun eq => out (List.mem_append_right _ (s.child i eq).1)
    obtain ⟨next', prev', parent', children'⟩ := inserted.other i outside other
    rw [if_neg parent] at children'
    exact node_eq (inserted.content i) ⟨next', prev', parent', children'⟩

end Site

end Trees

section Operations

variable {h : Nodes} {fs : List Forest} {up : Option Nat} {g kn : Forest} {n : Nat}

/-- A place is at one of the nodes of the list. -/
theorem spot_mem {is ms : List Nat} (ne : is ≠ []) (part : ∀ m ∈ ms, m ∈ is) (pos : Int) :
    ∃ x ∈ is, spot is ms pos = some (.before x) ∨ spot is ms pos = some (.after x) := by
  cases ms with
  | nil =>
      obtain ⟨l, last⟩ := Option.isSome_iff_exists.mp (List.getLast?_isSome.mpr ne)
      exact ⟨l, List.mem_of_getLast? last, .inr (by simp [spot, last])⟩
  | cons m ms =>
      simp only [spot]
      split
      · cases at_ : (m :: ms)[(pos - 1).toNat]? with
        | some x => exact ⟨x, part x (List.mem_of_getElem? at_), .inl rfl⟩
        | none =>
            obtain ⟨l, last⟩ := Option.isSome_iff_exists.mp
              (List.getLast?_isSome.mpr (List.cons_ne_nil m ms))
            exact ⟨l, part l (List.mem_of_getLast? last), .inr (by simp [last])⟩
      · cases at_ : (m :: ms).reverse[(-pos).toNat]? with
        | some x => exact ⟨x, part x (List.mem_reverse.mp (List.mem_of_getElem? at_)), .inr rfl⟩
        | none => exact ⟨m, part m (by simp), .inl rfl⟩

/-- A node before another one is followed by it. -/
theorem next_put_before {h' : Nodes} {up prev : Option Nat} {x : Nat} (top : x ∈ g.tops)
    (l : Linked h' up prev (g.put n kn (.before x))) : (h'.node n).next = some x := by
  induction g generalizing prev with
  | nil => cases top
  | cons i kids rest _ ih =>
      simp only [Forest.put, Spot.before.injEq, reduceCtorEq, if_false] at l
      by_cases here : x = i
      · rw [if_pos here] at l
        rw [l.1.2.1, here]
        rfl
      · rw [if_neg here] at l
        rcases List.mem_cons.mp top with same | top
        · exact absurd same here
        · exact ih top l.2.2

namespace Site

/-- A node is put into its place when the position can be counted from the other end. -/
theorem placed_iff (s : Site h fs up g n kn) {first : Nat} (head : g.head? = some first)
    (same : Nat → Bool) (pos : Int) :
    Placed h (h.insertAt (h.nodeLocateAt same) first pos n) fs up g (g.place same pos n kn) n kn ↔
      Counts (g.tops.filter same) pos := by
  have chain := s.siblings.chain
  have enough := s.enough
  have above : ∀ q, up = some q → (h.node q).children = g.head? := fun q eq => (s.child q eq).2.1
  obtain ⟨rest, tops⟩ : ∃ rest, g.tops = first :: rest := by
    cases g with
    | nil => cases head
    | cons i kids rest =>
        obtain rfl : i = first := Option.some.inj head
        exact ⟨rest.tops, rfl⟩
  have part : ∀ m ∈ g.tops.filter same, m ∈ g.tops := fun m mem => List.mem_of_mem_filter mem
  constructor
  · intro placed least
    by_contra bad
    obtain ⟨some_, short⟩ := not_or.mp bad
    have short := Nat.le_of_not_lt short
    obtain ⟨m, ms, matches_⟩ := List.exists_cons_of_ne_nil some_
    have top : m ∈ g.tops := part m (by simp [matches_])
    have list := placed.list
    rw [matches_] at short
    have none : (m :: ms).reverse[(-pos).toNat]? = none := by
      rw [List.getElem?_eq_none_iff, List.length_reverse]
      omega
    rw [Forest.place, matches_] at list
    simp only [spot, none] at list
    rw [if_neg (by omega)] at list
    have next := next_put_before top list
    rw [tops] at chain matches_ enough
    have ne := s.fresh.ne (Forest.mem_ids_of_mem_tops top)
    rw [insertAt_wraps chain enough matches_ short least] at next
    -- the node is behind the first one, which would have to be next to itself
    obtain ⟨next', _⟩ := Nodes.gnodeAfter_links (h := h) ne n
    rw [next', if_neg ne, if_pos rfl] at next
    exact s.siblings.next_self (List.nodup_append.mp s.fresh.nodup).2.1
      (Forest.mem_ids_of_mem_tops top) next
  · intro counts
    apply s.placed
    obtain ⟨x, top, at_⟩ := spot_mem (by simp [tops]) part pos
    have run : h.insertAt (h.nodeLocateAt same) first pos n =
        h.put n (spot g.tops (g.tops.filter same) pos) := by
      rw [tops] at chain counts enough ⊢
      exact insertAt_spot chain enough counts n
    rw [run, Forest.place]
    rcases at_ with at_ | at_
    · rw [at_]
      exact gnodeBefore_inserted s.siblings s.fresh s.unlinked top s.out above
    · rw [at_]
      exact gnodeAfter_inserted s.siblings s.fresh s.unlinked top s.out above

/-- A node becomes the only child of another one. -/
theorem placed_child {q : Nat} (s : Site h fs (some q) .nil n kn) (same : Nat → Bool) (pos : Int) :
    Placed h ((h.setChildren q (some n)).setParent n (some q)) fs (some q) .nil
      (Forest.nil.place same pos n kn) n kn := by
  apply s.placed
  refine child_inserted (s.child q rfl).2.1 (s.fresh.part (List.Sublist.refl _)) s.unlinked ?_
  intro mem
  exact s.out q rfl (List.mem_append_left _ mem)

end Site

/-- The operations put a node into the place for a position, among all siblings or among those with
    its identifier, exactly when the position is not the least `int` or it need not be counted from
    the other end. -/
theorem inserts (s : Site h fs up g n kn) (ident : Nat → Identifier) (pos : Int) :
    (∀ first, g.head? = some first →
      (Placed h (h.gnodeAddAt (some first) pos (some n)).2 fs up g
        (g.place (fun _ => true) pos n kn) n kn ↔ Counts (g.tops.filter fun _ => true) pos) ∧
      (Placed h (h.nodeAddAt ident (some first) pos (some n)).2 fs up g
        (g.place (fun i => (ident n).same (ident i)) pos n kn) n kn ↔
          Counts (g.tops.filter fun i => (ident n).same (ident i)) pos)) ∧
    ∀ q, up = some q →
      (Placed h (h.gnodeInsertAt q pos (some n)).2 fs up g
        (g.place (fun _ => true) pos n kn) n kn ↔ Counts (g.tops.filter fun _ => true) pos) ∧
      (Placed h (h.nodeInsertAt ident q pos (some n)).2 fs up g
        (g.place (fun i => (ident n).same (ident i)) pos n kn) n kn ↔
          Counts (g.tops.filter fun i => (ident n).same (ident i)) pos) := by
  refine ⟨fun first head => ?_, fun q eq => ?_⟩
  · simp only [Nodes.gnodeAddAt, Nodes.nodeAddAt, gnodePos_all]
    exact ⟨s.placed_iff head _ pos, s.placed_iff head _ pos⟩
  · have children := (s.child q eq).2.1
    simp only [Nodes.gnodeInsertAt, Nodes.nodeInsertAt, children, gnodePos_all]
    cases g with
    | nil =>
        subst eq
        have counts : Counts [] pos := fun _ => .inl rfl
        exact ⟨iff_of_true (s.placed_child _ pos) counts, iff_of_true (s.placed_child _ pos) counts⟩
    | cons i kids rest => exact ⟨s.placed_iff rfl _ pos, s.placed_iff rfl _ pos⟩

/-- A node with one child, and another node that is not linked. -/
def guest : Nodes where
  node
    | 0 => { Nodes.single [] none with children := some 1 }
    | 1 => { Nodes.single [] none with parent := some 0 }
    | _ => Nodes.single [] none
  size := 3

/-- The tree of these nodes. -/
def guestForest : Forest := .cons 0 (.cons 1 .nil .nil) .nil

theorem guest_site : Site guest [guestForest] (some 0) (.cons 1 .nil .nil) 2 .nil where
  linked := by simp [guestForest, Linked, guest, Nodes.single, Forest.head?]
  nodup := by decide
  sized := by decide
  unlinked := ⟨rfl, rfl, rfl⟩
  children := rfl
  below := trivial
  top := fun eq => by cases eq
  child := by
    rintro q ⟨⟩
    exact ⟨by decide, rfl, by simp [Linked, guest, Nodes.single, Forest.head?]⟩

/-- The other node becomes the first child. -/
theorem inserts_guest :
    Placed guest (guest.gnodeInsertAt 0 1 (some 2)).2 [guestForest] (some 0) (.cons 1 .nil .nil)
      (.cons 2 .nil (.cons 1 .nil .nil)) 2 .nil :=
  ((inserts guest_site (fun _ => ⟨0, [], by simp⟩) 1).2 0 rfl).1.mpr fun least => by
    exact absurd least (by decide)

/-- At the least `int` it should be the first child as well. -/
theorem insert_least : ¬ ∀ (h : Nodes) (fs : List Forest) (up : Option Nat) (g kn : Forest) (n : Nat),
    Site h fs up g n kn → ∀ pos : Int, -2 ^ 31 ≤ pos → pos < 2 ^ 31 → ∀ q, up = some q →
      Placed h (h.gnodeInsertAt q pos (some n)).2 fs up g (g.place (fun _ => true) pos n kn) n kn := by
  intro claim
  have placed := claim guest [guestForest] (some 0) (.cons 1 .nil .nil) .nil 2 guest_site (-2 ^ 31)
    (by decide) (by decide) 0 rfl
  have run : (guest.gnodeInsertAt 0 (-2 ^ 31) (some 2)).2 =
      guest.insertAt (guest.nodeLocateAt fun _ => true) 1 (-2 ^ 31) 2 := by
    rw [← gnodePos_all]
    rfl
  rw [run] at placed
  rcases (guest_site.placed_iff rfl _ _).mp placed rfl with none | long
  · cases none
  · exact absurd long (by decide)

end Operations

end Mpt.Tree
