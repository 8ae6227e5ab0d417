import Mpt.Parse.TextTree
import Mpt.Tree.Handover
import Mpt.Config.PathRun

/-! # Queries of a text

The nodes that a text becomes are searched with a path: name by name, from the first node of a
list on.  What is found is the first element with the name in the text, below the one before.
-/

namespace Mpt.Parse

open Mpt.Tree
open Config (Path textBytes)
open Config.Path (TextRep next_text)

/-! ## The query -/

/-- `mpt_node_locate` at 1 for a name: an identifier that was not set is not an empty name. -/
def locateNamed (h : Nodes) (curr : Nat) (name : List Byte) : Option Nat :=
  if name = [] then none else h.nodeLocate curr name

/-- The loop of `mpt_node_query`: the path that is left, and the last node. -/
def queryLoop (h : Nodes) :
    (fuel : Nat) → (conf : Nat) → (pre : Option Nat) → Path → Path × Option Nat
  | 0, _, pre, p => (p, pre)
  | fuel + 1, conf, pre, p =>
      match p.next with
      | (p', .error _) => (p', pre)
      | (p', .ok clen) =>
          match locateNamed h conf (p.mem.read p.off clen) with
          -- path element missing: restore previous path parameters
          | none => ({ p' with off := p.off, len := p.len }, pre)
          | some n =>
              match (h.node n).children with
              | none => (p', some n)
              | some kids => queryLoop h fuel kids (some n) p'

/-- `mpt_node_query`.  Each round takes bytes from the path and goes down in the tree. -/
def nodeQuery (h : Nodes) (conf : Option Nat) (p : Path) : Path × Option Nat :=
  match conf with
  | none => (p, none)
  | some conf => if p.len = 0 then (p, none) else queryLoop h (p.len + h.size) conf none p

/-- The value of the first element with a name, and what is in it. -/
def Tree.first (name : List Byte) : Tree → Option (Option (List Byte) × Tree)
  | nil => none
  | option n val rest =>
      if n = name then some (if val = [] then none else some val, nil) else rest.first name
  | section_ n inner rest => if n = name then some (none, inner) else rest.first name

/-- The last element that is found on the way of some names, and the names that are left.
    Elements without a name are not found. -/
def Tree.query (found : Option (List Byte × Option (List Byte))) :
    List (List Byte) → Tree → Option (List Byte × Option (List Byte)) × List (List Byte)
  | [], _ => (found, [])
  | name :: names, tree =>
      if name = [] then
        (found, name :: names)
      else
        match tree.first name with
        | none => (found, name :: names)
        | some (val, inner) => Tree.query (some (name, val)) names inner

/-! ## Where the nodes of a tree are -/

/-- The numbers of the elements on top, when the first has the number `k`. -/
def Tree.tops (k : Nat) : Tree → List Nat
  | nil => []
  | option _ _ rest => k :: rest.tops (k + 1)
  | section_ _ inner rest => k :: rest.tops (k + 1 + inner.contents.length)

/-- The elements with a section, when the first has the number `k`. -/
def childrenFrom (parents : List Nat) (k q : Nat) : List Nat :=
  (parents.zipIdx k).filterMap fun p => if p.1 = q then some p.2 else none

variable {parents : List Nat} {k q : Nat} {h : Nodes}

theorem childrenFrom_append (l l' : List Nat) (k q : Nat) :
    childrenFrom (l ++ l') k q = childrenFrom l k q ++ childrenFrom l' (k + l.length) q := by
  unfold childrenFrom
  rw [List.zipIdx_append, List.filterMap_append]

theorem childrenFrom_none {l : List Nat} (other : ∀ p ∈ l, p ≠ q) (k : Nat) :
    childrenFrom l k q = [] := by
  unfold childrenFrom
  refine List.filterMap_eq_nil_iff.mpr fun x mem => if_neg ?_
  exact other _ (List.fst_mem_of_mem_zipIdx mem)

theorem childrenFrom_cons (p : Nat) (l : List Nat) (k q : Nat) :
    childrenFrom (p :: l) k q = (if p = q then [k] else []) ++ childrenFrom l (k + 1) q := by
  unfold childrenFrom
  rw [List.zipIdx_cons, List.filterMap_cons]
  by_cases same : p = q <;> simp [same]

/-- The sections of the elements are the one they all are in, and such among them. -/
theorem mem_parents (tree : Tree) {q k p : Nat} (mem : p ∈ tree.parents q k) :
    p = q ∨ k ≤ p ∧ p < k + tree.contents.length := by
  induction tree generalizing q k with
  | nil => cases mem
  | option name val rest ih =>
      rcases List.mem_cons.mp mem with eq | mem
      · exact .inl eq
      · have := ih mem
        simp only [Tree.contents, List.length_cons]
        omega
  | section_ name inner rest ihInner ih =>
      simp only [Tree.contents, List.length_append, List.length_cons]
      rcases List.mem_append.mp mem with mem | mem
      · rcases List.mem_cons.mp mem with eq | mem
        · exact .inl eq
        · have := ihInner mem
          omega
      · have := ih mem
        omega

/-- The elements on top are those of the section. -/
theorem childrenFrom_parents (tree : Tree) {q k : Nat} (before : q < k) :
    childrenFrom (tree.parents q k) k q = tree.tops k := by
  induction tree generalizing k with
  | nil => rfl
  | option name val rest ih =>
      rw [Tree.parents, childrenFrom_cons, if_pos rfl, ih (by omega)]
      rfl
  | section_ name inner rest _ ih =>
      have outside : childrenFrom (inner.parents k (k + 1)) (k + 1) q = [] :=
        childrenFrom_none (fun p mem => by have := mem_parents inner mem; omega) _
      rw [Tree.parents, List.cons_append, childrenFrom_cons, if_pos rfl, childrenFrom_append,
        outside, length_parents, ih (by omega)]
      rfl

/-- The elements of a tree are the nodes from the number `k` on. -/
def Sits (h : Nodes) (parents : List Nat) : Tree → (k : Nat) → Prop
  | .nil, _ => True
  | .option name val rest, k =>
      ((h.node k).ident = name ∧ (h.node k).value = (if val = [] then none else some val) ∧
        childrenFrom parents 1 k = []) ∧ Sits h parents rest (k + 1)
  | .section_ name inner rest, k =>
      ((h.node k).ident = name ∧ (h.node k).value = none ∧
        childrenFrom parents 1 k = inner.tops (k + 1)) ∧
      Sits h parents inner (k + 1) ∧ Sits h parents rest (k + 1 + inner.contents.length)

/-- The elements of a tree stand among all elements, from the number `k` on, with those on top
    in the section `q`. -/
structure Among (h : Nodes) (parents : List Nat) (tree : Tree) (q k : Nat) : Prop where
  before : q < k
  links : ∃ l l', parents = l ++ tree.parents q k ++ l' ∧ l.length + 1 = k ∧ (∀ p ∈ l, p < k) ∧
    ∀ p ∈ l', p < k ∨ k + tree.contents.length ≤ p
  filled : ∃ c c', Contents h (c ++ tree.contents ++ c') ∧ c.length + 1 = k

namespace Among

variable {name val : List Byte} {rest inner : Tree}

theorem whole {tree : Tree} (filled : Contents h tree.contents) :
    Among h (tree.parents 0 1) tree 0 1 := by
  refine ⟨Nat.one_pos, ⟨[], [], ?_, rfl, ?_, ?_⟩, ⟨[], [], ?_, rfl⟩⟩
  · rw [List.nil_append, List.append_nil]
  · intro p mem
    cases mem
  · intro p mem
    cases mem
  · rw [List.nil_append, List.append_nil]
    exact filled

/-- The first element is the node with the number. -/
theorem content {tree : Tree} {first : List Byte × Option (List Byte)}
    {more : List (List Byte × Option (List Byte))} (among : Among h parents tree q k)
    (contents : tree.contents = first :: more) :
    (h.node k).ident = first.1 ∧ (h.node k).value = first.2 := by
  obtain ⟨c, c', filled, front⟩ := among.filled
  have here := filled.content c.length (by simp [contents])
  simp only [contents, List.append_assoc, List.cons_append,
    List.getElem_append_right (Nat.le_refl c.length), Nat.sub_self, List.getElem_cons_zero,
    front] at here
  exact here

/-- Nothing is in an option. -/
theorem alone (among : Among h parents (.option name val rest) q k) :
    childrenFrom parents 1 k = [] := by
  obtain ⟨l, l', all, _, below, above⟩ := among.links
  have before := among.before
  refine childrenFrom_none (fun p mem => ?_) _
  simp only [Tree.contents, List.length_cons] at above
  simp only [all, Tree.parents, List.mem_append, List.mem_cons] at mem
  rcases mem with (mem | eq | mem) | mem
  · exact Nat.ne_of_lt (below p mem)
  · omega
  · have := mem_parents rest mem
    omega
  · have := above p mem
    omega

theorem next (among : Among h parents (.option name val rest) q k) :
    Among h parents rest q (k + 1) := by
  obtain ⟨l, l', all, front, below, above⟩ := among.links
  obtain ⟨c, c', filled, front'⟩ := among.filled
  simp only [Tree.contents, List.length_cons] at above
  refine ⟨Nat.lt_succ_of_lt among.before, ⟨l ++ [q], l', ?_, by simp [front], ?_, ?_⟩,
    ⟨c ++ [(name, if val = [] then none else some val)], c', ?_, by simp [front']⟩⟩
  · simp [all, Tree.parents]
  · intro p mem
    rcases List.mem_append.mp mem with mem | mem
    · exact Nat.lt_succ_of_lt (below p mem)
    · rw [List.mem_singleton.mp mem]
      exact Nat.lt_succ_of_lt among.before
  · intro p mem
    have := above p mem
    omega
  · simpa [Tree.contents] using filled

/-- What stands before the elements in a section, and what behind. -/
theorem inside (among : Among h parents (.section_ name inner rest) q k) :
    ∃ l l', parents = l ++ inner.parents k (k + 1) ++ l' ∧ l.length = k ∧ (∀ p ∈ l, p < k) ∧
      ∀ p ∈ l', p < k ∨ k + 1 + inner.contents.length ≤ p := by
  obtain ⟨l, l', all, front, below, above⟩ := among.links
  have before := among.before
  simp only [Tree.contents, List.length_append, List.length_cons] at above
  refine ⟨l ++ [q], rest.parents q (k + 1 + inner.contents.length) ++ l', ?_, by simp [front],
    ?_, ?_⟩
  · simp [all, Tree.parents]
  · intro p mem
    rcases List.mem_append.mp mem with mem | mem
    · exact below p mem
    · rw [List.mem_singleton.mp mem]
      exact before
  · intro p mem
    rcases List.mem_append.mp mem with mem | mem
    · have := mem_parents rest mem
      omega
    · have := above p mem
      omega

/-- The elements on top of a section are those in it. -/
theorem kids (among : Among h parents (.section_ name inner rest) q k) :
    childrenFrom parents 1 k = inner.tops (k + 1) := by
  obtain ⟨l, l', all, front, below, above⟩ := among.inside
  have start : 1 + l.length = k + 1 := by
    rw [front, Nat.add_comm]
  rw [all, childrenFrom_append, childrenFrom_append, start,
    childrenFrom_none fun p mem => Nat.ne_of_lt (below p mem),
    childrenFrom_parents inner (Nat.lt_succ_self k), childrenFrom_none (fun p mem => ?_),
    List.nil_append, List.append_nil]
  have := above p mem
  omega

theorem within (among : Among h parents (.section_ name inner rest) q k) :
    Among h parents inner k (k + 1) := by
  obtain ⟨l, l', all, front, below, above⟩ := among.inside
  obtain ⟨c, c', filled, front'⟩ := among.filled
  refine ⟨Nat.lt_succ_self k, ⟨l, l', all, by rw [front], ?_, ?_⟩,
    ⟨c ++ [(name, none)], rest.contents ++ c', ?_, by simp [front']⟩⟩
  · exact fun p mem => Nat.lt_succ_of_lt (below p mem)
  · intro p mem
    have := above p mem
    omega
  · simpa [Tree.contents] using filled

theorem behind (among : Among h parents (.section_ name inner rest) q k) :
    Among h parents rest q (k + 1 + inner.contents.length) := by
  obtain ⟨l, l', all, front, below, above⟩ := among.links
  obtain ⟨c, c', filled, front'⟩ := among.filled
  have before := among.before
  simp only [Tree.contents, List.length_append, List.length_cons] at above
  refine ⟨by omega, ⟨l ++ q :: inner.parents k (k + 1), l', ?_, ?_, ?_, ?_⟩,
    ⟨c ++ (name, none) :: inner.contents, c', ?_, ?_⟩⟩
  · simp [all, Tree.parents]
  · simp only [List.length_append, List.length_cons, length_parents]
    omega
  · intro p mem
    rcases List.mem_append.mp mem with mem | mem
    · have := below p mem
      omega
    · rcases List.mem_cons.mp mem with eq | mem
      · omega
      · have := mem_parents inner mem
        omega
  · intro p mem
    have := above p mem
    omega
  · simpa [Tree.contents] using filled
  · simp only [List.length_append, List.length_cons]
    omega

theorem sits {tree : Tree} (among : Among h parents tree q k) : Sits h parents tree k := by
  induction tree generalizing q k with
  | nil => trivial
  | option name val rest ih =>
      obtain ⟨ident, value⟩ := among.content rfl
      exact ⟨⟨ident, value, among.alone⟩, ih among.next⟩
  | section_ name inner rest ihInner ih =>
      obtain ⟨ident, value⟩ := among.content rfl
      exact ⟨⟨ident, value, among.kids⟩, ihInner among.within, ih among.behind⟩

end Among

/-! ## What is found -/

/-- What a query tells about a node. -/
def told (h : Nodes) (n : Nat) : List Byte × Option (List Byte) :=
  ((h.node n).ident, (h.node n).value)

variable {tree inner : Tree} {name : List Byte} {val : Option (List Byte)} {p : Path}
  {els : List (List Byte)}

theorem named_cons (nm : Nat → List Byte) (name : List Byte) (i : Nat) (is : List Nat) :
    named nm name (i :: is) = if nm i = name then some i else named nm name is := by
  unfold named
  rw [List.find?_cons]
  by_cases same : nm i = name <;> simp [same]

/-- A name that no element has is not found. -/
theorem first_none (sits : Sits h parents tree k) (missing : tree.first name = none) :
    named (fun i => (h.node i).ident) name (tree.tops k) = none := by
  induction tree generalizing k with
  | nil => rfl
  | option n v rest ih =>
      obtain ⟨⟨ident, _, _⟩, more⟩ := sits
      unfold Tree.first at missing
      by_cases same : n = name
      · rw [if_pos same] at missing
        cases missing
      · rw [if_neg same] at missing
        rw [Tree.tops, named_cons, ident, if_neg same]
        exact ih more missing
  | section_ n inner rest _ ih =>
      obtain ⟨⟨ident, _, _⟩, _, more⟩ := sits
      unfold Tree.first at missing
      by_cases same : n = name
      · rw [if_pos same] at missing
        cases missing
      · rw [if_neg same] at missing
        rw [Tree.tops, named_cons, ident, if_neg same]
        exact ih more missing

/-- The first element with a name is found, with what is in it behind. -/
theorem first_some (sits : Sits h parents tree k) (found : tree.first name = some (val, inner)) :
    ∃ n, named (fun i => (h.node i).ident) name (tree.tops k) = some n ∧ told h n = (name, val) ∧
      childrenFrom parents 1 n = inner.tops (n + 1) ∧ Sits h parents inner (n + 1) := by
  induction tree generalizing k with
  | nil => cases found
  | option n v rest ih =>
      obtain ⟨⟨ident, value, alone⟩, more⟩ := sits
      unfold Tree.first at found
      by_cases same : n = name
      · rw [if_pos same] at found
        cases found
        refine ⟨k, ?_, ?_, alone, trivial⟩
        · rw [Tree.tops, named_cons, ident, if_pos same]
        · rw [told, ident, value, same]
      · rw [if_neg same] at found
        rw [Tree.tops, named_cons, ident, if_neg same]
        exact ih more found
  | section_ n below rest _ ih =>
      obtain ⟨⟨ident, value, kids⟩, inside, more⟩ := sits
      unfold Tree.first at found
      by_cases same : n = name
      · rw [if_pos same] at found
        cases found
        refine ⟨k, ?_, ?_, kids, inside⟩
        · rw [Tree.tops, named_cons, ident, if_pos same]
        · rw [told, ident, value, same]
      · rw [if_neg same] at found
        rw [Tree.tops, named_cons, ident, if_neg same]
        exact ih more found

/-- Nothing is left of a path without elements. -/
theorem next_end (rep : TextRep p []) : p.next = (p, .error .missingData) := by
  unfold Path.next
  rw [if_pos (by rw [rep.len]; rfl)]

/-- Of an element that is taken away no length is kept. -/
theorem next_first {p' : Path} {n : Nat} (text : p.sepBinary = false)
    (next : p.next = (p', .ok n)) :
    p'.first = 0 := by
  unfold Path.next at next
  split at next
  · cases next
  · split at next
    · cases next
    · rw [if_neg (by rw [text]; exact Bool.false_ne_true)] at next
      by_cases zero : p.first = 0
      · rw [if_neg (not_not.mpr zero)] at next
        split at next
        · cases next
          exact zero
        · cases next
          exact zero
      · rw [if_pos zero] at next
        cases next
        rfl

/-- A path that is put back has its elements again. -/
theorem restored {name : List Byte} {p' : Path} (rep : TextRep p (name :: els))
    (first : p'.first = 0) (same : p'.base = p.base) (sep : p'.sep = p.sep) :
    TextRep { p' with off := p.off, len := p.len } (name :: els) := by
  have mem : ({ p' with off := p.off, len := p.len } : Path).mem = p.mem := by
    unfold Path.mem
    rw [same]
  refine ⟨?_, ?_, .inl first, ?_⟩
  · rw [show ({ p' with off := p.off, len := p.len } : Path).sep = p.sep from sep]
    exact rep.len
  · rw [mem, show ({ p' with off := p.off, len := p.len } : Path).sep = p.sep from sep]
    exact rep.bytes
  · rw [show ({ p' with off := p.off, len := p.len } : Path).sep = p.sep from sep]
    exact rep.free

theorem query_nil (found : Option (List Byte × Option (List Byte))) (els : List (List Byte)) :
    Tree.query found els .nil = (found, els) := by
  cases els with
  | nil => rfl
  | cons name els => exact if h : name = [] then if_pos h else if_neg h

section Nodes

variable (linked : Structured h parents)
include linked

/-- The elements on top of a section are a list of nodes. -/
theorem tops_chain (inside : q < h.size) (tops : childrenFrom parents 1 q = tree.tops k) :
    (h.node q).children = (tree.tops k).head? ∧ Chain h (some q) none (tree.tops k) := by
  rw [← tops]
  exact ⟨linked.children q inside, linked.chain q inside⟩

theorem tops_inside (tops : childrenFrom parents 1 q = tree.tops k) {n : Nat}
    (mem : n ∈ tree.tops k) : n < h.size := by
  rw [← tops] at mem
  obtain ⟨pos, place⟩ := mem_childrenOf.mp mem
  obtain ⟨bound, _⟩ := List.getElem?_eq_some_iff.mp place
  rw [linked.size]
  omega

/-- A section without nodes has nothing in it. -/
theorem tree_nil (inside : q < h.size) (tops : childrenFrom parents 1 q = tree.tops k)
    (head : (h.node q).children = none) : tree = .nil := by
  have list := (tops_chain linked inside tops).1
  rw [head] at list
  cases tree with
  | nil => rfl
  | option name val rest => cases list
  | section_ name inner rest => cases list

/-- In the nodes of a section the first one with the name is located. -/
theorem located {conf : Nat} (inside : q < h.size)
    (tops : childrenFrom parents 1 q = tree.tops k) (head : (h.node q).children = some conf)
    (set : name ≠ []) :
    locateNamed h conf name = named (fun i => (h.node i).ident) name (tree.tops k) := by
  obtain ⟨children, chain⟩ := tops_chain linked inside tops
  rw [head] at children
  obtain ⟨is, list⟩ : ∃ is, tree.tops k = conf :: is := List.head?_eq_some_iff.mp children.symm
  have few : is.length < h.size := by
    have all := List.length_filterMap_le (fun p => if p.1 = q then some p.2 else none)
      (parents.zipIdx 1)
    rw [show (parents.zipIdx 1).filterMap _ = childrenFrom parents 1 q from rfl, tops, list,
      List.length_zipIdx, List.length_cons] at all
    rw [linked.size]
    omega
  rw [list] at chain
  rw [locateNamed, if_neg set, list]
  exact locateLoop_eq (fun i => rfl) chain few

/-- From the nodes of a tree on the query goes the way that the names have in the tree. -/
theorem queryLoop_finds {conf fuel : Nat} {pre : Option Nat} (sits : Sits h parents tree k)
    (tops : childrenFrom parents 1 q = tree.tops k) (inside : q < h.size)
    (head : (h.node q).children = some conf) (rep : TextRep p els) (text : p.sepBinary = false)
    (base : p.base ≠ .null) (enough : els.length ≤ fuel) :
    ∃ p' n, queryLoop h fuel conf pre p = (p', n) ∧
      TextRep p' (tree.query (pre.map (told h)) els).2 ∧
      n.map (told h) = (tree.query (pre.map (told h)) els).1 := by
  induction els generalizing tree k q conf fuel pre p with
  | nil =>
      refine ⟨p, pre, ?_, rep, rfl⟩
      cases fuel with
      | zero => rfl
      | succ fuel => rw [queryLoop, next_end rep]
  | cons name els ih =>
      obtain ⟨fuel, rfl⟩ := Nat.exists_eq_succ_of_ne_zero (by simp at enough; omega : fuel ≠ 0)
      obtain ⟨p', next, start, rep', alike, same, _, _⟩ := next_text rep text base
      have back := restored rep (next_first text next) same alike.sep
      rw [queryLoop, next]
      dsimp only
      rw [show p.mem.read p.off name.length = name from start, Tree.query]
      by_cases empty : name = []
      · rw [locateNamed, if_pos empty, if_pos empty]
        exact ⟨_, pre, rfl, back, rfl⟩
      rw [located linked inside tops head empty, if_neg empty]
      cases found : tree.first name with
      | none =>
          rw [first_none sits found]
          exact ⟨_, pre, rfl, back, rfl⟩
      | some result =>
          obtain ⟨val, inner⟩ := result
          obtain ⟨n, search, tells, kids, sits'⟩ := first_some sits found
          have inside' := tops_inside linked tops (List.mem_of_find?_eq_some search)
          rw [search]
          dsimp only
          cases head' : (h.node n).children with
          | none =>
              rw [tree_nil linked inside' kids head', query_nil]
              exact ⟨p', some n, rfl, rep', congrArg some tells⟩
          | some first =>
              have deeper : ∃ p'' n', queryLoop h fuel first (some n) p' = (p'', n') ∧
                  TextRep p'' (inner.query ((some n).map (told h)) els).2 ∧
                  n'.map (told h) = (inner.query ((some n).map (told h)) els).1 :=
                ih sits' kids inside' head' rep' (alike.sepBinary.trans text)
                  (by rw [same]; exact base) (Nat.le_of_succ_le_succ enough)
              rw [Option.map_some, tells] at deeper
              exact deeper

end Nodes

theorem length_textBytes (sep : Byte) (els : List (List Byte)) :
    els.length ≤ (textBytes sep els).length := by
  induction els with
  | nil => exact Nat.le_refl _
  | cons e els ih =>
      simp only [textBytes, List.flatMap_cons, List.length_append, List.length_cons] at ih ⊢
      omega

/-- In the nodes of a tree a path leads to the first elements with its names. -/
theorem nodeQuery_finds (linked : Structured h (tree.parents 0 1))
    (filled : Contents h tree.contents) (rep : TextRep p els) (sep : p.sepBinary = false)
    (base : p.base ≠ .null) :
    ∃ p' n, nodeQuery h (h.node 0).children p = (p', n) ∧
      TextRep p' (tree.query none els).2 ∧ n.map (told h) = (tree.query none els).1 := by
  have tops : childrenFrom (tree.parents 0 1) 1 0 = tree.tops 1 :=
    childrenFrom_parents tree Nat.one_pos
  have inside : 0 < h.size := by
    rw [filled.size]
    exact Nat.succ_pos _
  cases first : (h.node 0).children with
  | none =>
      rw [tree_nil linked inside tops first, query_nil]
      exact ⟨p, none, rfl, rep, rfl⟩
  | some conf =>
      have long := length_textBytes p.sep els
      rw [← rep.len] at long
      unfold nodeQuery
      by_cases empty : p.len = 0
      · have nothing : els = [] := by
          rw [empty] at long
          exact List.length_eq_zero_iff.mp (Nat.le_zero.mp long)
        rw [nothing] at rep ⊢
        exact ⟨p, none, if_pos empty, rep, rfl⟩
      · simp only [if_neg empty]
        exact queryLoop_finds linked (Among.whole filled).sits tops inside first rep sep base
          (Nat.le_add_right_of_le long)

/-- The path `b.a` in memory. -/
def samplePath : Path :=
  { Path.init false 46 0 with base := .text fun i => [98, 46, 97, 46].getD i 0, len := 4 }

end Mpt.Parse
