import Mpt.Parse.Append
import Mathlib.Data.List.Induction

/-! # The tree is the structure of the events

An outline says for every element, by its number, in which section it is: in the one
that was opened last and is not closed.  The nodes are linked as the outline says,
until an element follows one that has only data.
-/

namespace Mpt.Parse

open Mpt.Tree

/-- The section of every element, and the open sections from the inside. -/
structure Outline where
  parents : List Nat
  opened : List Nat

namespace Outline

/-- Only the root is open. -/
def start : Outline := ⟨[], [0]⟩

def step (o : Outline) : Event → Outline
  | .sectEnd => { o with opened := o.opened.tail }
  | .section_ => ⟨o.parents ++ o.opened.head?.toList, (o.parents.length + 1) :: o.opened⟩
  | _ => { o with parents := o.parents ++ o.opened.head?.toList }

def run (o : Outline) (es : List Event) : Outline := es.foldl step o

end Outline

/-- No section ends that was not opened. -/
def Bracketed : (depth : Nat) → List Event → Prop
  | _, [] => True
  | depth, .section_ :: es => Bracketed (depth + 1) es
  | depth, .sectEnd :: es => 0 < depth ∧ Bracketed (depth - 1) es
  | depth, _ :: es => Bracketed depth es

/-- No element follows one that has only data. -/
def Clean : List Event → Prop
  | [] => True
  | .data :: es => ∀ e ∈ es, e = .sectEnd
  | _ :: es => Clean es

/-- The elements in a section, in their order. -/
def childrenOf (parents : List Nat) (q : Nat) : List Nat :=
  (parents.zipIdx 1).filterMap fun p => if p.1 = q then some p.2 else none

/-- The nodes are linked as their sections say. -/
structure Structured (h : Nodes) (parents : List Nat) : Prop where
  size : h.size = parents.length + 1
  children : ∀ q < h.size, (h.node q).children = (childrenOf parents q).head?
  chain : ∀ q < h.size, Chain h (some q) none (childrenOf parents q)
  root : (h.node 0).parent = none ∧ (h.node 0).prev = none ∧ (h.node 0).next = none

theorem childrenOf_concat (parents : List Nat) (p q : Nat) :
    childrenOf (parents ++ [p]) q =
      childrenOf parents q ++ if p = q then [parents.length + 1] else [] := by
  unfold childrenOf
  rw [List.zipIdx_append, List.filterMap_append]
  by_cases same : p = q <;> simp [same, Nat.add_comm]

theorem mem_childrenOf {parents : List Nat} {i q : Nat} :
    i ∈ childrenOf parents q ↔ 0 < i ∧ parents[i - 1]? = some q := by
  unfold childrenOf
  simp only [List.mem_filterMap, Prod.exists, Option.ite_none_right_eq_some, Option.some.injEq]
  constructor
  · rintro ⟨a, b, mem, rfl, rfl⟩
    rw [List.mk_mem_zipIdx_iff_le_and_getElem?_sub] at mem
    exact mem
  · rintro ⟨pos, get⟩
    exact ⟨q, i, List.mk_mem_zipIdx_iff_le_and_getElem?_sub.mpr ⟨pos, get⟩, rfl, rfl⟩

theorem childrenOf_le {parents : List Nat} {i q : Nat} (mem : i ∈ childrenOf parents q) :
    i ≤ parents.length := by
  obtain ⟨pos, get⟩ := mem_childrenOf.mp mem
  have := (List.getElem?_eq_some_iff.mp get).1
  omega

theorem length_childrenOf_le (parents : List Nat) (q : Nat) :
    (childrenOf parents q).length ≤ parents.length := by
  unfold childrenOf
  exact Nat.le_trans (List.length_filterMap_le _ _) (Nat.le_of_eq List.length_zipIdx)

theorem childrenOf_nodup (parents : List Nat) (q : Nat) : (childrenOf parents q).Nodup := by
  induction parents using List.reverseRecOn with
  | nil => exact List.nodup_nil
  | append_singleton parents p ih =>
      rw [childrenOf_concat]
      by_cases same : p = q
      · rw [if_pos same]
        refine List.nodup_append.mpr ⟨ih, List.pairwise_singleton _ _, ?_⟩
        rintro i mem j new rfl
        rw [List.mem_singleton] at new
        have := childrenOf_le mem
        omega
      · rw [if_neg same, List.append_nil]
        exact ih

/-- Every element comes after its section. -/
def Ordered (parents : List Nat) : Prop := ∀ i q, i ∈ childrenOf parents q → q < i

namespace Structured

variable {h : Nodes} {parents : List Nat}

theorem parent (s : Structured h parents) {i q : Nat} (mem : i ∈ childrenOf parents q)
    (inside : q < h.size) : (h.node i).parent = some q :=
  (s.chain q inside).parent mem

theorem mem_lt (s : Structured h parents) {i q : Nat} (mem : i ∈ childrenOf parents q) :
    i < h.size := by
  have := childrenOf_le mem
  have := s.size
  omega

/-- No node is a child of the one that comes next. -/
theorem childless (s : Structured h parents) (ordered : Ordered parents) :
    childrenOf parents h.size = [] := by
  apply List.eq_nil_iff_forall_not_mem.mpr
  intro i mem
  have := ordered i _ mem
  have := s.mem_lt mem
  omega

/-- A new first child. -/
theorem first (s : Structured h parents) (ordered : Ordered parents) {q : Nat}
    (inside : q < h.size) (none : childrenOf parents q = []) (name : List Byte)
    (val : Option (List Byte)) :
    Structured ((h.new name val).gnodeInsert q h.size) (parents ++ [q]) := by
  have apart : q ≠ h.size := by omega
  have empty : ((h.new name val).node q).children = Option.none := by
    rw [Nodes.new_other _ _ _ apart, s.children q inside, none]
    rfl
  have size := s.size
  have eq : (h.new name val).gnodeInsert q h.size =
      ((h.new name val).set q { h.node q with children := some h.size }).set h.size
        { Nodes.single name val with parent := some q } := by
    unfold Nodes.gnodeInsert
    rw [empty]
    simp only
    rw [Nodes.set_other _ _ apart.symm, Nodes.new_node, Nodes.new_other _ _ _ apart]
  have here : ((h.new name val).gnodeInsert q h.size).node q =
      { h.node q with children := some h.size } := by
    rw [eq, Nodes.set_other _ _ apart, Nodes.set_node]
  have fresh : ((h.new name val).gnodeInsert q h.size).node h.size =
      { Nodes.single name val with parent := some q } := by
    rw [eq, Nodes.set_node]
  have others (j : Nat) (old : j ≠ q) (new : j ≠ h.size) :
      ((h.new name val).gnodeInsert q h.size).node j = h.node j := by
    rw [eq, Nodes.set_other _ _ new, Nodes.set_other _ _ old, Nodes.new_other _ _ _ new]
  generalize (h.new name val).gnodeInsert q h.size = h' at here fresh others eq ⊢
  have links (j : Nat) (old : j < h.size) : (h'.node j).prev = (h.node j).prev ∧
      (h'.node j).next = (h.node j).next ∧ (h'.node j).parent = (h.node j).parent := by
    by_cases same : j = q
    · rw [same, here]
      exact ⟨rfl, rfl, rfl⟩
    · rw [others j same (by omega)]
      exact ⟨rfl, rfl, rfl⟩
  have childless := s.childless ordered
  refine ⟨?_, fun r bound => ?_, fun r bound => ?_, ?_⟩
  · rw [eq]
    simp [size]
  · rw [childrenOf_concat, ← size]
    by_cases same : q = r
    · rw [← same, here, none, if_pos rfl]
      rfl
    · rw [if_neg same, List.append_nil]
      by_cases new : r = h.size
      · rw [new, fresh, childless]
        rfl
      · rw [others r (Ne.symm same) new]
        refine s.children r ?_
        rw [eq] at bound
        simp only [Nodes.set_size, Nodes.new_size] at bound
        omega
  · rw [childrenOf_concat, ← size]
    by_cases same : q = r
    · rw [← same, none, if_pos rfl]
      refine ⟨?_, ?_, ?_, trivial⟩ <;> rw [fresh] <;> rfl
    · rw [if_neg same, List.append_nil]
      by_cases new : r = h.size
      · rw [new, childless]
        trivial
      · refine (s.chain r ?_).congr fun i mem => links i (s.mem_lt mem)
        rw [eq] at bound
        simp only [Nodes.set_size, Nodes.new_size] at bound
        omega
  · obtain ⟨eq, eq', eq''⟩ := links 0 (by omega)
    rw [eq, eq', eq'']
    exact s.root

/-- A new last child. -/
theorem last (s : Structured h parents) (ordered : Ordered parents) {q l : Nat}
    (inside : q < h.size) (end_ : (childrenOf parents q).getLast? = some l) (name : List Byte)
    (val : Option (List Byte)) :
    Structured ((h.new name val).gnodeAfter l h.size) (parents ++ [q]) := by
  have mem := List.mem_of_getLast? end_
  have old : l < h.size := s.mem_lt mem
  have apart : l ≠ h.size := by omega
  have size := s.size
  obtain ⟨fresh, here, others, size'⟩ := Nodes.gnodeAfter_last (h.new name val) (l := l)
    (n := h.size) apart.symm
    (by rw [Nodes.new_other _ _ _ apart, (s.chain q inside).last end_])
  rw [Nodes.new_node, Nodes.new_other _ _ _ apart, s.parent mem inside] at fresh
  rw [Nodes.new_other _ _ _ apart] at here
  rw [Nodes.new_size] at size'
  replace others (j : Nat) (new : j ≠ h.size) (other : j ≠ l) :
      ((h.new name val).gnodeAfter l h.size).node j = h.node j := by
    rw [others j new other, Nodes.new_other _ _ _ new]
  generalize (h.new name val).gnodeAfter l h.size = h' at fresh here others size' ⊢
  have links (j : Nat) (old : j < h.size) : (h'.node j).prev = (h.node j).prev ∧
      (h'.node j).parent = (h.node j).parent ∧ (h'.node j).children = (h.node j).children := by
    by_cases same : j = l
    · rw [same, here]
      exact ⟨rfl, rfl, rfl⟩
    · rw [others j (by omega) same]
      exact ⟨rfl, rfl, rfl⟩
  have childless := s.childless ordered
  refine ⟨?_, fun r bound => ?_, fun r bound => ?_, ?_⟩
  · rw [size', List.length_append, size]
    rfl
  · rw [childrenOf_concat, ← size]
    by_cases new : r = h.size
    · rw [if_neg (by omega), List.append_nil, new, fresh, childless]
      rfl
    · rw [(links r (by omega)).2.2, s.children r (by omega)]
      by_cases same : q = r
      · rw [← same]
        cases is : childrenOf parents q with
        | nil => rw [is] at mem; cases mem
        | cons i is => rfl
      · rw [if_neg same, List.append_nil]
  · rw [childrenOf_concat, ← size]
    by_cases same : q = r
    · rw [if_pos same, ← same]
      refine (s.chain q inside).extend (childrenOf_nodup _ _) (fun i mem => ?_) (fun i mem => ?_) ?_
      · obtain ⟨eq, eq', _⟩ := links i (s.mem_lt mem)
        exact ⟨eq, eq'⟩
      · rw [end_]
        by_cases same : l = i
        · rw [← same, here, if_pos rfl]
        · rw [if_neg fun eq => same (Option.some.inj eq), others i _ (Ne.symm same)]
          have := s.mem_lt mem
          omega
      · rw [fresh, end_]
        exact ⟨rfl, rfl, rfl⟩
    · rw [if_neg same, List.append_nil]
      by_cases new : r = h.size
      · rw [new, childless]
        trivial
      · refine (s.chain r (by omega)).congr fun i mem' => ?_
        have bound := s.mem_lt mem'
        have other : i ≠ l := by
          rintro rfl
          have eq := s.parent mem inside
          rw [s.parent mem' (by omega)] at eq
          exact same (Option.some.inj eq).symm
        rw [others i (by omega) other]
        exact ⟨rfl, rfl, rfl⟩
  · by_cases zero : l = 0
    · have := ordered l q mem
      omega
    · rw [others 0 (by omega) (Ne.symm zero)]
      exact s.root

/-- A new node in the list that another one is in. -/
theorem add (s : Structured h parents) (ordered : Ordered parents) {q i : Nat}
    (inside : q < h.size) (mem : i ∈ childrenOf parents q) (name : List Byte)
    (val : Option (List Byte)) :
    Structured ((h.new name val).gnodeAdd i h.size) (parents ++ [q]) := by
  obtain ⟨prev', rest, chain, part, end_⟩ := (s.chain q inside).from_mem mem
  obtain ⟨l, last⟩ : ∃ l, (i :: rest).getLast? = some l := by
    cases last : (i :: rest).getLast? with
    | none => simp at last
    | some l => exact ⟨l, rfl⟩
  have chain' : Chain (h.new name val) (some q) prev' (i :: rest) := by
    refine chain.congr fun j mem' => ?_
    have old := s.mem_lt (part.subset mem')
    rw [Nodes.new_other _ _ _ (by omega)]
    exact ⟨rfl, rfl, rfl⟩
  have reached : (h.new name val).gnodeLast i = l := by
    refine lastLoop_chain chain' last ?_
    have short := part.length_le
    have most := length_childrenOf_le parents q
    have size := s.size
    simp only [List.length_cons, Nodes.new_size] at short ⊢
    omega
  unfold Nodes.gnodeAdd
  rw [reached]
  exact s.last ordered inside (end_ ▸ last) name val

/-- A new node in the list of children of a node. -/
theorem insert (s : Structured h parents) (ordered : Ordered parents) {q : Nat}
    (inside : q < h.size) (name : List Byte) (val : Option (List Byte)) :
    Structured ((h.new name val).gnodeInsert q h.size) (parents ++ [q]) := by
  cases is : childrenOf parents q with
  | nil => exact s.first ordered inside is name val
  | cons i is' =>
      have children : ((h.new name val).node q).children = some i := by
        rw [Nodes.new_other _ _ _ (by omega), s.children q inside, is]
        rfl
      unfold Nodes.gnodeInsert
      rw [children]
      exact s.add ordered inside (by rw [is]; simp) name val

end Structured

theorem Ordered.concat {parents : List Nat} (ordered : Ordered parents) {q : Nat}
    (inside : q ≤ parents.length) : Ordered (parents ++ [q]) := by
  intro i r mem
  rw [childrenOf_concat] at mem
  rcases List.mem_append.mp mem with mem | mem
  · exact ordered i r mem
  · by_cases same : q = r
    · rw [if_pos same, List.mem_singleton] at mem
      omega
    · rw [if_neg same] at mem
      cases mem

/-- What an event does that makes an element. -/
theorem nodeAppend_element {h h' : Nodes} {old next : Nat} {dest : Config.Path}
    {val : Option (List Byte)} {prev curr : Event} {grant : Grant} (element : curr ≠ .sectEnd)
    (ok : nodeAppend h old dest val prev.flags curr.flags grant = (h', some next)) :
    next = h.size ∧ ∃ name, h' = if prev = .section_ ∨ prev = .data then
      (h.new name val).gnodeInsert old h.size else (h.new name val).gnodeAdd old h.size := by
  have saved : has curr.flags 15 = true := by cases curr <;> rfl
  have not_end : curr.flags ≠ Event.sectEnd.flags := by
    cases curr <;> first | exact absurd rfl element | decide
  unfold nodeAppend at ok
  rw [saved, if_neg (by simp), if_neg not_end] at ok
  simp only at ok
  generalize (if has curr.flags Event.section_.flags then dest.lastName else some []) = found at ok
  cases found with
  | none => cases ok
  | some name =>
      simp only at ok
      split at ok
      · cases ok
      · cases prev <;> simp [has, Event.flags] at ok <;> obtain ⟨rfl, rfl⟩ := ok <;>
          exact ⟨rfl, name, by simp⟩

theorem nodeAppend_end {h h' : Nodes} {old next : Nat} {dest : Config.Path}
    {val : Option (List Byte)} {prev : Event} {grant : Grant}
    (ok : nodeAppend h old dest val prev.flags Event.sectEnd.flags grant = (h', some next)) :
    h' = h ∧ if prev = .section_ ∨ prev = .data then next = old else
      (h.node old).parent = some next := by
  unfold nodeAppend at ok
  cases prev <;> simp [has, Event.flags] at ok <;> obtain ⟨rfl, eq⟩ := ok <;>
    exact ⟨rfl, by simpa [eq_comm] using eq⟩

/-- The open sections are one inside the other, and the root is around them. -/
def Nested (parents : List Nat) : List Nat → Prop
  | [] => False
  | [q] => q = 0
  | q :: r :: rest => q ∈ childrenOf parents r ∧ Nested parents (r :: rest)

theorem Nested.concat {parents opened : List Nat} (nested : Nested parents opened) (p : Nat) :
    Nested (parents ++ [p]) opened := by
  induction opened with
  | nil => exact nested
  | cons q opened ih =>
      cases opened with
      | nil => exact nested
      | cons r rest =>
          refine ⟨?_, ih nested.2⟩
          rw [childrenOf_concat]
          exact List.mem_append_left _ nested.1

theorem Nested.head {parents opened : List Nat} (nested : Nested parents opened) :
    ∃ q rest, opened = q :: rest ∧ q ≤ parents.length := by
  match opened, nested with
  | [q], nested => exact ⟨q, [], rfl, by rw [show q = 0 from nested]; exact Nat.zero_le _⟩
  | q :: r :: rest, nested => exact ⟨q, r :: rest, rfl, childrenOf_le nested.1⟩

/-- The tree so far is right, and the position is the open section if it is new, and an
    element of the open section if not. -/
structure Tracks (o : Outline) (b : Build) (e : Event) : Prop where
  nodes : Structured b.nodes o.parents
  ordered : Ordered o.parents
  nested : Nested o.parents o.opened
  prev : b.prev = e.flags
  pos : if e = .section_ then o.opened.head? = some b.pos else
    ∃ q, o.opened.head? = some q ∧ b.pos ∈ childrenOf o.parents q

/-- The tree so far is right, but the position is one level too deep. -/
structure Adrift (o : Outline) (b : Build) : Prop where
  nodes : Structured b.nodes o.parents
  ordered : Ordered o.parents
  nested : Nested o.parents o.opened
  prev : b.prev = Event.sectEnd.flags
  pos : ∃ q r, b.pos ∈ childrenOf o.parents q ∧ q ∈ childrenOf o.parents r ∧
    o.opened.head? = some r

/-- A node is linked to a parent that is not its section. -/
def Wrong (h : Nodes) (parents : List Nat) : Prop :=
  ∃ i q r, parents[i]? = some q ∧ (h.node (i + 1)).parent = some r ∧ r ≠ q ∧ q < h.size ∧
    i + 1 < h.size

theorem Wrong.not_structured {h : Nodes} {parents : List Nat} (wrong : Wrong h parents) :
    ¬ Structured h parents := by
  obtain ⟨i, q, r, get, up, other, inside, _⟩ := wrong
  intro s
  have mem : i + 1 ∈ childrenOf parents q := mem_childrenOf.mpr ⟨by omega, get⟩
  rw [s.parent mem inside] at up
  exact other (Option.some.inj up).symm

variable {o : Outline} {b b' : Build} {s : Step} {e : Event}

theorem save_eq (ok : b.save s = some b') : ∃ h', nodeAppend b.nodes b.pos s.path s.value b.prev
    s.event.flags s.grant = (h', some b'.pos) ∧ b'.nodes = h' ∧ b'.prev = s.event.flags := by
  unfold Build.save at ok
  split at ok
  · cases ok
  · next h' next eq =>
      cases ok
      exact ⟨h', eq, rfl, rfl⟩

theorem Outline.step_element {q : Nat} {rest : List Nat} (opened : o.opened = q :: rest)
    (element : e ≠ .sectEnd) : (o.step e).parents = o.parents ++ [q] ∧
      (o.step e).opened =
        if e = .section_ then (o.parents.length + 1) :: o.opened else o.opened := by
  cases e with
  | sectEnd => exact absurd rfl element
  | section_ | option | optionData | data => simp [Outline.step, opened]

/-- An element goes where the outline has it. -/
theorem tracks_element (t : Tracks o b e) (regular : e ≠ .data) (element : s.event ≠ .sectEnd)
    (ok : b.save s = some b') : Tracks (o.step s.event) b' s.event := by
  obtain ⟨h', eq, nodes, prev⟩ := save_eq ok
  rw [t.prev] at eq
  obtain ⟨next, name, eq⟩ := nodeAppend_element element eq
  obtain ⟨q, rest, opened, bound⟩ := t.nested.head
  obtain ⟨parents, opened'⟩ := Outline.step_element opened element
  have size := t.nodes.size
  have inside : q < b.nodes.size := by omega
  have linked : Structured b'.nodes (o.parents ++ [q]) := by
    rw [nodes, eq]
    have pos := t.pos
    by_cases section_ : e = .section_
    · rw [if_pos section_, opened, List.head?_cons] at pos
      rw [if_pos (.inl section_), ← Option.some.inj pos]
      exact t.nodes.insert t.ordered inside name _
    · rw [if_neg section_, opened] at pos
      obtain ⟨q', head, mem⟩ := pos
      cases head
      rw [if_neg (not_or.mpr ⟨section_, regular⟩)]
      exact t.nodes.add t.ordered inside mem name _
  refine ⟨by rw [parents]; exact linked, by rw [parents]; exact t.ordered.concat bound, ?_, prev, ?_⟩
  · rw [parents, opened']
    have nested := t.nested.concat q
    split
    · rw [opened] at nested ⊢
      refine ⟨?_, nested⟩
      rw [childrenOf_concat, if_pos rfl]
      simp
    · exact nested
  · rw [opened', parents, next, size]
    by_cases section_ : s.event = .section_
    · simp [section_]
    · rw [if_neg section_, if_neg section_]
      refine ⟨q, by rw [opened]; rfl, ?_⟩
      rw [childrenOf_concat, if_pos rfl]
      simp

/-- After the end of a section the position is its node. -/
theorem tracks_end (t : Tracks o b e) (regular : e ≠ .data) (end_ : s.event = .sectEnd)
    (inner : 2 ≤ o.opened.length) (ok : b.save s = some b') :
    Tracks (o.step s.event) b' s.event := by
  obtain ⟨h', eq, nodes, prev⟩ := save_eq ok
  rw [t.prev, end_] at eq
  obtain ⟨rfl, next⟩ := nodeAppend_end eq
  have nested := t.nested
  have pos := t.pos
  rw [end_] at prev ⊢
  cases opened : o.opened with
  | nil => rw [opened] at inner; simp at inner
  | cons q rest =>
      cases rest with
      | nil => rw [opened] at inner; simp at inner
      | cons r rest =>
          rw [opened] at nested pos
          have at_ : b'.pos = q := by
            by_cases section_ : e = .section_
            · rw [if_pos section_, List.head?_cons] at pos
              rw [if_pos (.inl section_)] at next
              exact next.trans (Option.some.inj pos).symm
            · rw [if_neg section_, List.head?_cons] at pos
              obtain ⟨q', head, mem⟩ := pos
              cases head
              have bound := childrenOf_le nested.1
              have size := t.nodes.size
              rw [if_neg (not_or.mpr ⟨section_, regular⟩), t.nodes.parent mem (by omega)] at next
              exact (Option.some.inj next).symm
          refine ⟨by rw [nodes]; exact t.nodes, t.ordered, ?_, prev, ?_⟩
          · simp only [Outline.step, opened, List.tail_cons]
            exact nested.2
          · simp only [Outline.step, opened, List.tail_cons, reduceCtorEq, if_false]
            exact ⟨r, rfl, by rw [at_]; exact nested.1⟩

/-- After an element with only data the position stays in the section that ends. -/
def Loose (o : Outline) (b : Build) : Prop := Tracks o b .data ∨ Adrift o b

theorem Loose.nodes (l : Loose o b) : Structured b.nodes o.parents :=
  l.elim (fun t => t.nodes) fun a => a.nodes

theorem loose_end (l : Loose o b) (end_ : s.event = .sectEnd) (inner : 2 ≤ o.opened.length)
    (ok : b.save s = some b') : Loose (o.step s.event) b' := by
  obtain ⟨h', eq, nodes, prev⟩ := save_eq ok
  rw [end_] at prev
  right
  rcases l with t | a
  · rw [t.prev, end_] at eq
    obtain ⟨rfl, next⟩ := nodeAppend_end eq
    rw [if_pos (.inr rfl)] at next
    obtain ⟨q, head, mem⟩ := t.pos
    have nested := t.nested
    rw [end_]
    cases opened : o.opened with
    | nil => rw [opened] at inner; simp at inner
    | cons q' rest =>
        cases rest with
        | nil => rw [opened] at inner; simp at inner
        | cons r rest =>
            rw [opened] at nested head
            cases head
            refine ⟨by rw [nodes]; exact t.nodes, t.ordered, ?_, prev, ?_⟩
            · simp only [Outline.step, opened, List.tail_cons]
              exact nested.2
            · simp only [Outline.step, opened, List.tail_cons]
              exact ⟨q, r, by rw [next]; exact mem, nested.1, rfl⟩
  · rw [a.prev, end_] at eq
    obtain ⟨rfl, next⟩ := nodeAppend_end eq
    obtain ⟨q, r, mem, mem', head⟩ := a.pos
    have nested := a.nested
    have bound := childrenOf_le mem'
    have size := a.nodes.size
    rw [if_neg (by simp), a.nodes.parent mem (by omega)] at next
    rw [end_]
    cases opened : o.opened with
    | nil => rw [opened] at inner; simp at inner
    | cons r' rest =>
        cases rest with
        | nil => rw [opened] at inner; simp at inner
        | cons r'' rest =>
            rw [opened] at nested head
            cases head
            refine ⟨by rw [nodes]; exact a.nodes, a.ordered, ?_, prev, ?_⟩
            · simp only [Outline.step, opened, List.tail_cons]
              exact nested.2
            · simp only [Outline.step, opened, List.tail_cons]
              refine ⟨r, r'', ?_, nested.1, rfl⟩
              rw [← Option.some.inj next]
              exact mem'

/-- A node that is in another section than the one that is open. -/
theorem wrong_of_structured {q r : Nat} {rest : List Nat} (element : s.event ≠ .sectEnd)
    (opened : o.opened = q :: rest) (inside : q < b'.nodes.size) (inside' : r < b'.nodes.size)
    (linked : Structured b'.nodes (o.parents ++ [r])) (other : r ≠ q) :
    Wrong b'.nodes (o.step s.event).parents := by
  have size := linked.size
  rw [List.length_append, List.length_singleton] at size
  rw [(Outline.step_element opened element).1]
  refine ⟨o.parents.length, q, r, by simp, linked.parent ?_ inside', other, inside, by omega⟩
  rw [childrenOf_concat, if_pos rfl]
  simp

theorem loose_element (l : Loose o b) (element : s.event ≠ .sectEnd) (ok : b.save s = some b') :
    Wrong b'.nodes (o.step s.event).parents := by
  obtain ⟨h', eq, nodes, prev⟩ := save_eq ok
  have size := l.nodes.size
  rcases l with t | a
  · rw [t.prev] at eq
    obtain ⟨next, name, eq⟩ := nodeAppend_element element eq
    rw [if_pos (.inr rfl)] at eq
    obtain ⟨q, head, mem⟩ := t.pos
    obtain ⟨q', rest, opened, bound⟩ := t.nested.head
    rw [opened] at head
    cases head
    have less := t.ordered _ _ mem
    have linked := t.nodes.insert t.ordered (t.nodes.mem_lt mem) name s.value
    rw [← eq, ← nodes] at linked
    have size' := linked.size
    rw [List.length_append, List.length_singleton] at size'
    have inside := t.nodes.mem_lt mem
    exact wrong_of_structured element opened (by omega) (by omega) linked (by omega)
  · rw [a.prev] at eq
    obtain ⟨next, name, eq⟩ := nodeAppend_element element eq
    rw [if_neg (by simp)] at eq
    obtain ⟨q, r, mem, mem', head⟩ := a.pos
    obtain ⟨r', rest, opened, bound⟩ := a.nested.head
    rw [opened] at head
    cases head
    have less := a.ordered _ _ mem'
    have inside := a.nodes.mem_lt mem'
    have linked := a.nodes.add a.ordered inside mem name s.value
    rw [← eq, ← nodes] at linked
    have size' := linked.size
    rw [List.length_append, List.length_singleton] at size'
    exact wrong_of_structured element opened (by omega) (by omega) linked (by omega)

/-- The parents of nodes that exist do not change. -/
theorem save_parent (ok : b.save s = some b') : b.nodes.size ≤ b'.nodes.size ∧
    ∀ j < b.nodes.size, (b'.nodes.node j).parent = (b.nodes.node j).parent := by
  obtain ⟨h', eq, nodes, prev⟩ := save_eq ok
  rw [nodes]
  unfold nodeAppend at eq
  split at eq
  · obtain ⟨rfl, _⟩ := Prod.mk.inj eq
    exact ⟨Nat.le_refl _, fun _ _ => rfl⟩
  · split at eq
    · split at eq <;> obtain ⟨rfl, _⟩ := Prod.mk.inj eq <;>
        exact ⟨Nat.le_refl _, fun _ _ => rfl⟩
    · simp only at eq
      generalize (if has s.event.flags Event.section_.flags then s.path.lastName else some []) =
        found at eq
      cases found with
      | none => cases eq
      | some name =>
          simp only at eq
          split at eq
          · cases eq
          · split at eq <;> obtain ⟨rfl, _⟩ := Prod.mk.inj eq
            · refine ⟨?_, fun j old => ?_⟩
              · rw [Nodes.gnodeInsert_size, Nodes.new_size]
                omega
              · rw [Nodes.gnodeInsert_parent _ _ _ (by omega), Nodes.new_other _ _ _ (by omega)]
            · refine ⟨?_, fun j old => ?_⟩
              · rw [Nodes.gnodeAdd, Nodes.gnodeAfter_size, Nodes.new_size]
                omega
              · rw [Nodes.gnodeAdd, Nodes.gnodeAfter_parent _ _ _ (by omega),
                  Nodes.new_other _ _ _ (by omega)]

theorem Outline.step_prefix (o : Outline) (e : Event) : o.parents <+: (o.step e).parents := by
  cases e with
  | sectEnd => exact List.prefix_rfl
  | section_ | option | optionData | data => exact List.prefix_append _ _

theorem wrong_save (wrong : Wrong b.nodes o.parents) (ok : b.save s = some b') :
    Wrong b'.nodes (o.step s.event).parents := by
  obtain ⟨i, q, r, get, up, other, inside, inside'⟩ := wrong
  obtain ⟨more, same⟩ := save_parent ok
  obtain ⟨new, parents⟩ := o.step_prefix s.event
  refine ⟨i, q, r, ?_, (same _ inside').trans up, other, by omega, by omega⟩
  rw [← parents, List.getElem?_append_left (List.getElem?_eq_some_iff.mp get).1, get]

/-- The events of a run. -/
def events (ss : List Step) : List Event := ss.map Step.event

@[simp] theorem events_cons (s : Step) (ss : List Step) : events (s :: ss) = s.event :: events ss := rfl

theorem wrong_run (wrong : Wrong b.nodes o.parents) (ss : List Step) (ok : b.run ss = some b') :
    Wrong b'.nodes (o.run (events ss)).parents := by
  induction ss generalizing o b with
  | nil =>
      cases ok
      exact wrong
  | cons s ss ih =>
      rw [Build.run] at ok
      cases saved : b.save s with
      | none => rw [saved] at ok; cases ok
      | some b₁ =>
          rw [saved] at ok
          exact ih (wrong_save wrong saved) ok

theorem loose_run (l : Loose o b) (ss : List Step)
    (bracketed : Bracketed (o.opened.length - 1) (events ss)) (ok : b.run ss = some b') :
    Structured b'.nodes (o.run (events ss)).parents ↔ ∀ e ∈ events ss, e = .sectEnd := by
  induction ss generalizing o b with
  | nil =>
      cases ok
      exact ⟨fun _ e mem => (nomatch mem), fun _ => l.nodes⟩
  | cons s ss ih =>
      rw [Build.run] at ok
      cases saved : b.save s with
      | none => rw [saved] at ok; cases ok
      | some b₁ =>
          rw [saved] at ok
          by_cases end_ : s.event = .sectEnd
          · simp only [events_cons, end_, Bracketed] at bracketed
            have loose := loose_end l end_ (by omega) saved
            have rest := ih loose (by simpa [Outline.step, end_] using bracketed.2) ok
            simp only [events_cons, List.mem_cons, forall_eq_or_imp, end_, true_and]
            rw [end_] at rest
            exact rest
          · have wrong := wrong_run (loose_element l end_ saved) ss ok
            refine ⟨fun s' => absurd s' wrong.not_structured, fun all => ?_⟩
            exact absurd (all s.event (by simp)) end_

theorem tracks_run (t : Tracks o b e) (regular : e ≠ .data) (ss : List Step)
    (bracketed : Bracketed (o.opened.length - 1) (events ss)) (ok : b.run ss = some b') :
    Structured b'.nodes (o.run (events ss)).parents ↔ Clean (events ss) := by
  induction ss generalizing o b e with
  | nil =>
      cases ok
      exact ⟨fun _ => trivial, fun _ => t.nodes⟩
  | cons s ss ih =>
      rw [Build.run] at ok
      obtain ⟨q, rest, opened, _⟩ := t.nested.head
      cases saved : b.save s with
      | none => rw [saved] at ok; cases ok
      | some b₁ =>
          rw [saved] at ok
          by_cases end_ : s.event = .sectEnd
          · simp only [events_cons, end_, Bracketed] at bracketed
            have next := tracks_end t regular end_ (by omega) saved
            have rest := ih next (by simp [end_]) (by simpa [Outline.step, end_] using bracketed.2) ok
            rw [end_] at rest
            simp only [events_cons, end_, Clean]
            exact rest
          · have next := tracks_element t regular end_ saved
            have opened' := (Outline.step_element opened end_).2
            by_cases data : s.event = .data
            · simp only [events_cons, data, Bracketed] at bracketed
              rw [data] at next
              have rest := loose_run (.inl next) ss (by simpa [Outline.step] using bracketed) ok
              simp only [events_cons, data, Clean]
              exact rest
            · have same : Clean (events (s :: ss)) = Clean (events ss) := by
                simp only [events_cons]
                cases event : s.event <;> first | rfl | exact absurd event data
              rw [same]
              refine ih next data ?_ ok
              rw [opened']
              simp only [events_cons] at bracketed
              cases event : s.event <;> rw [event] at bracketed <;>
                first
                | exact absurd event end_
                | exact absurd event data
                | simpa [Bracketed, opened, event] using bracketed

theorem tracks_start : Tracks .start .start .section_ := by
  refine ⟨⟨rfl, fun q inside => ?_, fun q inside => trivial, rfl, rfl, rfl⟩, ?_, rfl, rfl, rfl⟩
  · rfl
  · intro i q mem
    cases mem

/-- The nodes are linked as the events say, if and only if no element comes after one that
    has only data. -/
theorem tree_of_events (ss : List Step) (bracketed : Bracketed 0 (events ss)) {b : Build}
    (ok : Build.start.run ss = some b) :
    Structured b.nodes (Outline.start.run (events ss)).parents ↔ Clean (events ss) :=
  tracks_run tracks_start (by decide) ss bracketed ok

/-- An event with the path of an element `a`, and memory for it. -/
def plain (e : Event) : Step :=
  ⟨e, ⟨.text fun _ => 97, 0, 2, 1, false, false, 47, 61⟩, [], true, true, true⟩

/-- Sections with options and an empty one, and data at the end of a section. -/
def sections : List Step :=
  [.section_, .section_, .sectEnd, .optionData, .sectEnd, .option, .section_, .data, .sectEnd].map plain

theorem tree_of_sections : ∃ b, Build.start.run sections = some b ∧
    Structured b.nodes [0, 1, 1, 0, 0, 5] :=
  ⟨_, rfl, (tree_of_events sections (by simp [events, plain, Bracketed, sections]) rfl).mpr
    (by simp [events, plain, Clean, sections])⟩

/-- An option after an element that has only data is not its neighbour. -/
theorem element_after_data : ¬ ∀ ss b, Bracketed 0 (events ss) → Build.start.run ss = some b →
    Structured b.nodes (Outline.start.run (events ss)).parents := by
  intro all
  have bracketed : Bracketed 0 (events ([.data, .option].map plain)) := by
    simp [events, plain, Bracketed]
  have right := all _ _ bracketed rfl
  have clean := (tracks_run tracks_start (by decide) _ bracketed rfl).mp right
  exact absurd (clean .option (by simp [plain])) (by decide)

end Mpt.Parse
