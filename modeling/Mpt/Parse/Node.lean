import Mpt.Parse.Outline
import Mpt.Tree.Leaf
import Mpt.Tree.Handover

/-! # Parsing into a tree that exists

The new nodes are built below a local node, and then merged with those of the root.
A failure destroys the new nodes and leaves the tree as it was.
-/

namespace Mpt.Parse

open Mpt.Tree

/-- The local node `conf` and the position there. -/
def Build.begin (h : Nodes) : Build := ⟨h.new [] none, h.size, Event.section_.flags⟩

/-- `mpt_parse_config`: all events until one fails, or the final result of the parser. -/
def parseConfig (b : Build) : List Step → (ret : Int) → Build × Int
  | [], ret => (b, ret)
  | s :: ss, ret =>
      match b.save s with
      | none => (b, -0x80)
      | some b => parseConfig b ss ret

/-- `mpt_parse_node`, with the events that the input has in its format, and the result of
    the parser (or of the path) behind them: the storage, the nodes that are destroyed, and
    the result. -/
def parseNode (h : Nodes) (root : Nat) (steps : List Step) (ret : Int) : Nodes × List Nat × Int :=
  let conf := h.size
  let (b, err) := parseConfig (Build.begin h) steps ret
  let h := b.nodes
  -- clear created nodes on error
  if err < 0 then
    let (h, gone) := h.nodeClear conf
    (h, gone, err)
  else
    match (h.node root).children with
    -- create new nodes
    | none => (h.setChildren root (h.node conf).children, [], err)
    -- add to existing
    | some _ =>
        match (h.node conf).children with
        | none => (h, [], err)
        | some dst =>
            -- move/set non-present entries
            let (h, _) := h.nodeMove root (some dst)
            -- clear remaining/superseeded entries
            let (h, gone) := h.nodeClear root
            -- replace tree with merged data
            let curr := (h.node conf).children
            let h := h.setChildren root curr
            -- set parent for moved nodes
            ((h.parentLoop curr root 0 h.size).1, gone, err)

/-- The new nodes are a tree at the local node, and nothing else changed. -/
structure Grown (h : Nodes) (b : Build) : Prop where
  tree : ∃ kids rest, Linked b.nodes none none (.cons h.size kids rest) ∧
    (Forest.cons h.size kids rest).ids.Nodup ∧
    (∀ i ∈ (Forest.cons h.size kids rest).ids, h.size ≤ i ∧ i < b.nodes.size) ∧
    b.pos ∈ (Forest.cons h.size kids rest).ids
  same : ∀ i < h.size, b.nodes.node i = h.node i
  size : h.size < b.nodes.size

variable {h : Nodes} {b b' : Build} {s : Step}

theorem grown_begin (h : Nodes) : Grown h (Build.begin h) := by
  refine ⟨⟨.nil, .nil, ⟨⟨?_, ?_, ?_, ?_⟩, trivial, trivial⟩, by simp, ?_, by simp [Build.begin]⟩,
    fun i inside => Nodes.new_other h _ _ (Nat.ne_of_lt inside), Nat.lt_succ_self _⟩
  · simp only [Build.begin, Nodes.new_node]
    rfl
  · simp only [Build.begin, Nodes.new_node]
    rfl
  · simp only [Build.begin, Nodes.new_node]
    rfl
  · simp only [Build.begin, Nodes.new_node]
    rfl
  · intro i mem
    obtain rfl : i = h.size := by simpa using mem
    exact ⟨Nat.le_refl _, Nat.lt_succ_self _⟩

/-- Where a new node goes, and what it is. -/
theorem nodeAppend_cases {h h' : Nodes} {old next : Nat} {dest : Config.Path}
    {val : Option (List Byte)} {prevop currop : Nat} {grant : Grant}
    (ok : nodeAppend h old dest val prevop currop grant = (h', some next)) :
    (h' = h ∧ (next = old ∨ (h.node old).parent = some next)) ∨
      next = h.size ∧ ∃ name, h' = (h.new name val).gnodeInsert old h.size ∨
        h' = (h.new name val).gnodeAdd old h.size := by
  unfold nodeAppend at ok
  split at ok
  · obtain ⟨rfl, eq⟩ := Prod.mk.inj ok
    exact .inl ⟨rfl, .inl (Option.some.inj eq).symm⟩
  · split at ok
    · split at ok
      · obtain ⟨rfl, eq⟩ := Prod.mk.inj ok
        exact .inl ⟨rfl, .inr eq⟩
      · obtain ⟨rfl, eq⟩ := Prod.mk.inj ok
        exact .inl ⟨rfl, .inl (Option.some.inj eq).symm⟩
    · simp only at ok
      split at ok
      · cases (Prod.mk.inj ok).2
      · next name _ =>
          split at ok
          · cases (Prod.mk.inj ok).2
          · split at ok
            · obtain ⟨rfl, eq⟩ := Prod.mk.inj ok
              exact .inr ⟨(Option.some.inj eq).symm, name, .inl rfl⟩
            · obtain ⟨rfl, eq⟩ := Prod.mk.inj ok
              exact .inr ⟨(Option.some.inj eq).symm, name, .inr rfl⟩

theorem grown_save (g : Grown h b) (ok : b.save s = some b') : Grown h b' := by
  obtain ⟨h', eq, nodes, _⟩ := save_eq ok
  subst nodes
  obtain ⟨⟨kids, rest, linked, nodup, range, pos⟩, same, size⟩ := g
  rcases nodeAppend_cases eq with ⟨eq, here | up⟩ | ⟨next, name, put⟩
  · rw [← here] at pos
    refine ⟨⟨kids, rest, ?_, nodup, ?_, pos⟩, ?_, ?_⟩
    · rw [eq]
      exact linked
    · rw [eq]
      exact range
    · rw [eq]
      exact same
    · rw [eq]
      exact size
  · have pos' : b'.pos ∈ (Forest.cons h.size kids rest).ids := by
      rcases linked.parent_mem pos with none | ⟨p, mem, eq'⟩
      · rw [none] at up
        cases up
      · rw [eq'] at up
        exact Option.some.inj up ▸ mem
    refine ⟨⟨kids, rest, ?_, nodup, ?_, pos'⟩, ?_, ?_⟩
    · rw [eq]
      exact linked
    · rw [eq]
      exact range
    · rw [eq]
      exact same
    · rw [eq]
      exact size
  · have fresh : b.nodes.size ∉ (Forest.cons h.size kids rest).ids := fun mem =>
      Nat.lt_irrefl _ (range _ mem).2
    have linked' : Linked (b.nodes.new name s.value) none none (.cons h.size kids rest) :=
      linked.congr fun i mem => Nodes.new_other _ _ _ (Nat.ne_of_lt (range i mem).2)
    have below : ∀ i ∈ (Forest.cons h.size kids rest).ids, i < (b.nodes.new name s.value).size :=
      fun i mem => Nat.lt_succ_of_lt (range i mem).2
    have leaf : ((b.nodes.new name s.value).node b.nodes.size).children = none ∧
        ((b.nodes.new name s.value).node b.nodes.size).prev = none ∧
        ((b.nodes.new name s.value).node b.nodes.size).next = none := by
      rw [Nodes.new_node]
      exact ⟨rfl, rfl, rfl⟩
    obtain ⟨f, grows⟩ : ∃ f, Grows b'.nodes (b.nodes.new name s.value) none none
        (.cons h.size kids rest) b.nodes.size f := by
      rcases put with put | put
      · rw [put]
        exact linked'.gnodeInsert nodup below fresh leaf pos
      · rw [put]
        exact linked'.gnodeAdd nodup below fresh leaf.1 pos
    have first := grows.head h.size rfl
    have size' : b'.nodes.size = b.nodes.size + 1 := grows.size
    cases f with
    | nil => cases first
    | cons i kids' rest' =>
        obtain rfl := Option.some.inj first
        refine ⟨⟨kids', rest', grows.linked, ?_, fun i mem => ?_, ?_⟩, fun i inside => ?_, by omega⟩
        · exact (List.Perm.nodup_iff grows.ids).mpr (List.nodup_cons.mpr ⟨fresh, nodup⟩)
        · rcases List.mem_cons.mp (grows.ids.subset mem) with rfl | mem
          · exact ⟨Nat.le_of_lt size, by omega⟩
          · exact ⟨(range i mem).1, by have := (range i mem).2; omega⟩
        · rw [next]
          exact grows.ids.symm.subset (by simp)
        · rw [grows.same i (by omega) fun mem => by have := (range i mem).1; omega,
            Nodes.new_other _ _ _ (by omega), same i inside]

/-- Every parse builds a tree, whether it fails or not. -/
theorem grown_parse (steps : List Step) (g : Grown h b) (ret : Int) :
    Grown h (parseConfig b steps ret).1 := by
  induction steps generalizing b with
  | nil => exact g
  | cons s ss ih =>
      unfold parseConfig
      cases ok : b.save s with
      | none => exact g
      | some b' => exact ih (grown_save g ok)

/-- The tree of the root after a merge: every node of it is linked, and the nodes that are
    not kept are destroyed once. -/
structure Merges (nm : Nat → List Byte) (h h' : Nodes) (root : Nat) (gone : List Nat)
    (old new : Forest) : Prop where
  tree : Linked h' (some root) none (old.merge nm new)
  children : (h'.node root).children = (old.merge nm new).head?
  destroyed : gone.Perm (old.left nm new).ids
  once : ((old.merge nm new).ids ++ gone).Nodup
  all : ((old.merge nm new).ids ++ gone).Perm (new.ids ++ old.ids)
  content : ∀ i ∈ (old.merge nm new).ids,
    (h'.node i).ident = (h.node i).ident ∧ (h'.node i).value = (h.node i).value

/-- The condition for a merge with what was parsed: nothing, or nodes that are all below the
    local node, for a tree that is not empty and meets the condition at every level. -/
def Mergeable (nm : Nat → List Byte) (old new beside : Forest) : Prop :=
  beside = .nil ∧ (new = .nil ∨ old ≠ .nil ∧ old.Fine nm new)

variable {nm : Nat → List Byte} {old new : Forest} {root conf : Nat}

/-- Nothing is merged. -/
theorem merges_nothing {h' : Nodes} (tree : Linked h' (some root) none old)
    (children : (h'.node root).children = old.head?) (nodup : old.ids.Nodup)
    (same : ∀ i ∈ old.ids, h'.node i = h.node i) : Merges nm h h' root [] old .nil := by
  have kept : old.merge nm .nil = old := Forest.merge_into_nil old
  refine ⟨?_, ?_, ?_, ?_, ?_, ?_⟩
  · rw [kept]
    exact tree
  · rw [kept]
    exact children
  · rw [Forest.left_nil]
    exact List.Perm.refl _
  · rw [kept, List.append_nil]
    exact nodup
  · rw [kept, List.append_nil]
    exact List.Perm.refl _
  · intro i mem
    rw [kept] at mem
    rw [same i mem]
    exact ⟨rfl, rfl⟩

/-- The move, the clearing and the new parent, one after the other. -/
theorem merges_move (oldLinked : Linked h (some root) none old)
    (children : (h.node root).children = old.head?) (newLinked : Linked h (some conf) none new)
    (first : (h.node conf).children = new.head?)
    (nodup : (conf :: root :: (old.ids ++ new.ids)).Nodup)
    (below : ∀ i ∈ old.ids ++ new.ids, i < h.size) (filled : new ≠ .nil)
    (fine : old.Fine (fun i => (h.node i).ident) new) {dst : Nat} (head : new.head? = some dst) :
    let h₁ := (h.nodeMove root (some dst)).1
    let h₂ := (h₁.nodeClear root).1
    let curr := (h₂.node conf).children
    let h₃ := h₂.setChildren root curr
    Merges (fun i => (h.node i).ident) h (h₃.parentLoop curr root 0 h₃.size).1 root
      (h₁.nodeClear root).2 old new := by
  generalize names : (fun i => (h.node i).ident) = nm at fine ⊢
  obtain ⟨absentConf, nodupRoot⟩ := List.nodup_cons.mp nodup
  obtain ⟨absentRoot, nodupBoth⟩ := List.nodup_cons.mp nodupRoot
  have inside : ∀ i ∈ (old.merge nm new).ids ++ (old.left nm new).ids, i ∈ old.ids ++ new.ids := by
    intro i mem
    exact List.perm_append_comm.subset ((Forest.merge_perm old new).subset mem)
  have split : ((old.merge nm new).ids ++ (old.left nm new).ids).Nodup :=
    (List.Perm.nodup_iff ((Forest.merge_perm old new).trans List.perm_append_comm)).mpr nodupBoth
  obtain ⟨nodupMerge, nodupLeft, disjoint⟩ := List.nodup_append.mp split
  have belowOld : ∀ i ∈ old.ids, i < h.size := fun i mem => below i (List.mem_append_left _ mem)
  have a : Apart nm h root none (some conf) old (new.append .nil) := by
    rw [Forest.append_nil]
    exact ⟨oldLinked, newLinked, nodupRoot, below, fun i => congrFun names i⟩
  obtain ⟨h₁, move, run₁, moved⟩ := moveLoop_moved old a
    (by rw [Forest.append_nil]; exact head)
    (show dst ∈ (new.append .nil).tops by
      rw [Forest.append_nil]
      exact List.mem_of_head? (by rw [← Forest.head?_eq, head]))
    fine (fun o _ => by simp [Forest.names]) (.inr rfl)
    (length_le_of_below (List.nodup_append.mp nodupBoth).1 belowOld) 0
  have eq₁ : (h.nodeMove root (some dst)).1 = h₁ := by
    unfold Nodes.nodeMove
    simp only [children, run₁]
  have enough : (old.left nm new).ids.length ≤ h₁.size := by
    refine length_le_of_below nodupLeft fun i mem => ?_
    rw [moved.size]
    exact below i (inside i (List.mem_append_right _ mem))
  obtain ⟨h₂, gone, run₂, destroyed, same₂, size₂⟩ := clearLoop_spec moved.source nodupLeft enough
  have eq₂ : h₁.nodeClear root = (h₂.setChildren root none, gone) := by
    unfold Nodes.nodeClear
    rw [moved.first rfl children, run₂]
  have rootOut : ∀ i ∈ (old.merge nm new).ids ++ (old.left nm new).ids, i ≠ root := by
    rintro i mem rfl
    exact absentRoot (inside i mem)
  have confOut : ∀ i ∈ (old.merge nm new).ids ++ (old.left nm new).ids, i ≠ conf := by
    rintro i mem rfl
    exact absentConf (List.mem_cons_of_mem _ (inside i mem))
  have conf_ne : conf ≠ root := fun eq => absentConf (by simp [eq])
  have target : Linked h₁ (some conf) none (old.merge nm new) := moved.target
  have confNode : (h₂.node conf).children = (old.merge nm new).head? := by
    rw [same₂ conf fun mem => confOut conf (List.mem_append_right _ mem) rfl,
      moved.same conf conf_ne (fun mem => absentConf (by simp [mem])) (fun mem => absentConf (by
        rw [Forest.append_nil] at mem
        simp [mem])), first, Forest.head?_merge filled]
  simp only [eq₁, eq₂]
  have curr : ((h₂.setChildren root none).node conf).children = (old.merge nm new).head? := by
    unfold Nodes.setChildren
    rw [Nodes.set_other _ _ conf_ne, confNode]
  rw [curr]
  generalize put : (h₂.setChildren root none).setChildren root (old.merge nm new).head? = h₃
  have same₃ : ∀ i, i ≠ root → h₃.node i = h₂.node i := by
    intro i ne
    rw [← put]
    unfold Nodes.setChildren
    rw [Nodes.set_other _ _ ne, Nodes.set_other _ _ ne]
  have rootNode : (h₃.node root).children = (old.merge nm new).head? := by
    rw [← put]
    unfold Nodes.setChildren
    rw [Nodes.set_node]
  have size₃ : h₃.size = h.size := by
    rw [← put, ← moved.size, ← size₂]
    rfl
  have kept : ∀ i ∈ (old.merge nm new).ids, h₃.node i = h₁.node i := by
    intro i mem
    rw [same₃ i (rootOut i (List.mem_append_left _ mem)),
      same₂ i fun mem' => disjoint i mem i mem' rfl]
  have enoughTops : (old.merge nm new).tops.length ≤ h₃.size := by
    refine tops_length_le nodupMerge fun i mem => ?_
    rw [size₃]
    exact below i (inside i (List.mem_append_left _ mem))
  obtain ⟨h₄, count, run₄, linked, same₄, content, _⟩ :=
    parentLoop_spec (target.congr kept) nodupMerge root 0 enoughTops
  rw [run₄]
  refine ⟨linked, ?_, destroyed, ?_, ?_, fun i mem => ?_⟩
  · rw [same₄ root fun mem => rootOut root
      (List.mem_append_left _ (Forest.mem_ids_of_mem_tops mem)) rfl, rootNode]
  · exact (List.Perm.nodup_iff (destroyed.append_left _)).mpr split
  · exact (destroyed.append_left _).trans (Forest.merge_perm old new)
  · rw [(content i).1, (content i).2, kept i mem]
    exact moved.content i

theorem parseNode_add {steps : List Step} {ret err : Int} {first dst : Nat}
    (run : parseConfig (Build.begin h) steps ret = (b, err)) (fine : ¬ err < 0)
    (tree : (b.nodes.node root).children = some first)
    (added : (b.nodes.node h.size).children = some dst) :
    parseNode h root steps ret =
      let h₁ := (b.nodes.nodeMove root (some dst)).1
      let h₂ := (h₁.nodeClear root).1
      let curr := (h₂.node h.size).children
      let h₃ := h₂.setChildren root curr
      ((h₃.parentLoop curr root 0 h₃.size).1, (h₁.nodeClear root).2, err) := by
  unfold parseNode
  simp only [run, if_neg fine, tree, added]

/-- A failure leaves the tree as it was.  Otherwise the new nodes are merged with the old
    ones, whenever they can be. -/
theorem parse_merges (linked : Linked h (some root) none old)
    (children : (h.node root).children = old.head?) (nodup : (root :: old.ids).Nodup)
    (below : ∀ i ∈ root :: old.ids, i < h.size) (steps : List Step) (ret : Int) :
    let b := (parseConfig (Build.begin h) steps ret).1
    let err := (parseConfig (Build.begin h) steps ret).2
    let h' := (parseNode h root steps ret).1
    let gone := (parseNode h root steps ret).2.1
    (parseNode h root steps ret).2.2 = err ∧
      (err < 0 → ∀ i < h.size, h'.node i = h.node i) ∧
      (0 ≤ err → ∃ new beside, Linked b.nodes none none (.cons h.size new beside) ∧
        (Mergeable (fun i => (b.nodes.node i).ident) old new beside →
          Merges (fun i => (b.nodes.node i).ident) b.nodes h' root gone old new)) := by
  intro b err h' gone
  have grown : Grown h b := grown_parse steps (grown_begin h) ret
  have run : parseConfig (Build.begin h) steps ret = (b, err) := rfl
  obtain ⟨⟨kids, beside, tree, nodupNew, range, _⟩, same, size⟩ := grown
  have ⟨⟨_, _, _, first⟩, inside, _⟩ := tree
  obtain ⟨absent, nodupBoth⟩ := List.nodup_cons.mp nodupNew
  obtain ⟨nodupKids, _, _⟩ := List.nodup_append.mp nodupBoth
  have belowKids : ∀ i ∈ kids.ids, h.size < i ∧ i < b.nodes.size := by
    intro i mem
    obtain ⟨low, high⟩ := range i (by simp [mem])
    refine ⟨Nat.lt_of_le_of_ne low ?_, high⟩
    rintro rfl
    exact absent (List.mem_append_left _ mem)
  have rootSame : b.nodes.node root = h.node root := same root (below root (by simp))
  have oldLinked : Linked b.nodes (some root) none old :=
    linked.congr fun i mem => same i (below i (by simp [mem]))
  refine ⟨?_, fun bad i inH => ?_, fun good => ⟨kids, beside, ?_, fun ⟨_, can⟩ => ?_⟩⟩
  · unfold parseNode
    simp only [run]
    split
    · rfl
    · split
      · rfl
      · split <;> rfl
  · have failed : h' = (b.nodes.nodeClear h.size).1 := by
      show (parseNode h root steps ret).1 = _
      unfold parseNode
      simp only [run, if_pos bad]
    have enough : kids.ids.length ≤ b.nodes.size :=
      length_le_of_below nodupKids fun i mem => (belowKids i mem).2
    obtain ⟨h₁, gone₁, run₁, _, same₁, _⟩ := clearLoop_spec inside nodupKids enough
    rw [failed]
    unfold Nodes.nodeClear
    simp only [first, run₁]
    unfold Nodes.setChildren
    rw [Nodes.set_other _ _ (Nat.ne_of_lt inH), same₁ i fun mem => ?_, same i inH]
    exact absurd (belowKids i mem).1 (Nat.not_lt_of_lt inH)
  · exact tree
  · have fine : ¬ err < 0 := Int.not_lt.mpr good
    cases kids with
    | nil =>
        have unchanged : gone = [] ∧ ∀ i, h'.node i = b.nodes.node i := by
          show (parseNode h root steps ret).2.1 = [] ∧
            ∀ i, (parseNode h root steps ret).1.node i = b.nodes.node i
          unfold parseNode
          simp only [run, if_neg fine, first, Forest.head?]
          split
          · next empty =>
            refine ⟨rfl, fun i => ?_⟩
            unfold Nodes.setChildren
            by_cases eq : i = root
            · rw [eq, Nodes.set_node, ← empty]
            · rw [Nodes.set_other _ _ eq]
          · exact ⟨rfl, fun _ => rfl⟩
        rw [unchanged.1]
        refine merges_nothing (oldLinked.congr fun i _ => unchanged.2 i) ?_
          (List.nodup_cons.mp nodup).2 fun i _ => unchanged.2 i
        rw [unchanged.2, rootSame, children]
    | cons d ks ds =>
        obtain ⟨filled, levels⟩ := can.resolve_left (by simp)
        obtain ⟨o, someOld⟩ : ∃ o, old.head? = some o := by
          cases old with
          | nil => exact absurd rfl filled
          | cons o k r => exact ⟨o, rfl⟩
        have childrenB : (b.nodes.node root).children = old.head? := by
          rw [rootSame, children]
        have apart : (h.size :: root :: (old.ids ++ (Forest.cons d ks ds).ids)).Nodup := by
          obtain ⟨absentRoot, nodupOld⟩ := List.nodup_cons.mp nodup
          refine List.nodup_cons.mpr ⟨fun mem => ?_, List.nodup_cons.mpr ⟨fun mem => ?_,
            List.nodup_append.mpr ⟨nodupOld, nodupKids, fun x mem y mem' => ?_⟩⟩⟩
          · rcases List.mem_cons.mp mem with eq | mem
            · exact absurd (below root (by simp)) (by omega)
            · rcases List.mem_append.mp mem with mem | mem
              · exact Nat.lt_irrefl _ (below _ (List.mem_cons_of_mem _ mem))
              · exact Nat.lt_irrefl _ (belowKids _ mem).1
          · rcases List.mem_append.mp mem with mem | mem
            · exact absentRoot mem
            · exact absurd (belowKids _ mem).1 (Nat.not_lt_of_lt (below root (by simp)))
          · have old_lt := below x (List.mem_cons_of_mem _ mem)
            have new_gt := (belowKids y mem').1
            omega
        have result := merges_move oldLinked childrenB inside first apart (fun i mem => by
          rcases List.mem_append.mp mem with mem | mem
          · exact Nat.lt_trans (below i (List.mem_cons_of_mem _ mem)) size
          · exact (belowKids i mem).2) (by simp) levels rfl
        have added := parseNode_add run fine (childrenB.trans someOld) first
        show Merges _ _ (parseNode h root steps ret).1 root (parseNode h root steps ret).2.1 _ _
        rw [added]
        exact result

/-- A root with two options `b` and `a`. -/
def options : Nodes :=
  ((((Nodes.start.new [98] none).gnodeInsert 0 1).new [97] none).gnodeInsert 0 2)

/-- A new option `a` replaces the old one, and `b` comes behind it. -/
theorem options_replaced :
    Linked (parseNode options 0 [plain .option] 0).1 (some 0) none
      (.cons 4 .nil (.cons 1 .nil .nil)) ∧
    (parseNode options 0 [plain .option] 0).2.1.Perm [2] := by
  have linked : Linked options (some 0) none (.cons 1 .nil (.cons 2 .nil .nil)) :=
    ⟨⟨rfl, rfl, rfl, rfl⟩, trivial, ⟨rfl, rfl, rfl, rfl⟩, trivial, trivial⟩
  obtain ⟨_, _, merged⟩ := parse_merges linked rfl (by simp) (by simp; decide) [plain .option] 0
  obtain ⟨new, beside, ⟨⟨_, last, _, below⟩, inside, _⟩, result⟩ := merged (by decide)
  cases beside with
  | cons => cases last
  | nil =>
      cases new with
      | nil => cases below
      | cons i ks r =>
          obtain rfl : 4 = i := Option.some.inj below
          obtain ⟨⟨_, next, _, kids⟩, _⟩ := inside
          cases ks with
          | cons => cases kids
          | nil =>
              cases r with
              | cons => cases next
              | nil =>
                  generalize names : (fun i => ((parseConfig (Build.begin options) [plain .option]
                    0).1.nodes.node i).ident) = nm at result
                  have old₁ : nm 1 = [98] := (congrFun names 1).symm
                  have old₂ : nm 2 = [97] := (congrFun names 2).symm
                  have new₄ : nm 4 = [97] := (congrFun names 4).symm
                  have result := result ⟨rfl, .inr ⟨by simp, by
                    simp [Forest.Fine, Forest.kidsOf, Forest.names, old₁, old₂, new₄]⟩⟩
                  have kept : (Forest.cons 1 .nil (.cons 2 .nil .nil)).merge nm (.cons 4 .nil .nil) =
                      .cons 4 .nil (.cons 1 .nil .nil) := by
                    simp [Forest.merge, Forest.absorb, Forest.update, Forest.unmatched, Forest.names,
                      old₁, old₂, new₄]
                  have gone : (Forest.cons 1 .nil (.cons 2 .nil .nil)).left nm (.cons 4 .nil .nil) =
                      .cons 2 .nil .nil := by
                    simp [Forest.left, Forest.kidsOf, old₁, old₂, new₄]
                  rw [← kept]
                  refine ⟨result.tree, ?_⟩
                  have destroyed := result.destroyed
                  rw [gone] at destroyed
                  exact destroyed

/-- A section `a` with an option below. -/
def nested : Nodes :=
  ((((Nodes.start.new [97] none).gnodeInsert 0 1).new [120] none).gnodeInsert 1 2)

/-- The new option takes over what is below the old section, and this is destroyed with it. -/
theorem nested_destroyed : ¬ ∀ h root old, Linked h (some root) none old →
    (h.node root).children = old.head? → (root :: old.ids).Nodup →
    (∀ i ∈ root :: old.ids, i < h.size) → ∀ steps, (parseNode h root steps 0).2.2 = 0 →
    ∃ tree, Linked (parseNode h root steps 0).1 (some root) none tree ∧
      ((parseNode h root steps 0).1.node root).children = tree.head? ∧
      (tree.ids ++ (parseNode h root steps 0).2.1).Nodup := by
  intro all
  have linked : Linked nested (some 0) none (.cons 1 (.cons 2 .nil .nil) .nil) :=
    ⟨⟨rfl, rfl, rfl, rfl⟩, ⟨⟨rfl, rfl, rfl, rfl⟩, trivial, trivial⟩, trivial⟩
  obtain ⟨tree, links, children, _⟩ := all nested 0 _ linked rfl (by simp) (by simp; decide)
    [plain .option] rfl
  cases tree with
  | nil => cases children
  | cons i kids rest =>
      obtain rfl : 4 = i := Option.some.inj children
      obtain ⟨⟨_, _, _, below⟩, inside, _⟩ := links
      cases kids with
      | nil => cases below
      | cons j ks r =>
          obtain rfl : 2 = j := Option.some.inj below
          cases inside.1.2.2.1

end Mpt.Parse
