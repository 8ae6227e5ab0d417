import Mpt.Tree.Traverse

/-! # Traversal by levels

The next node of a level is found from the current one: where a list ends, the parents are
gone up as far as the level is deep, and the next node there that has children leads back
down.
-/

namespace Mpt.Tree

namespace Nodes

variable (h : Nodes)

/-- The loop of `mpt_gnode_samelevel` over the parents' level. -/
def levelLoop (same : Option Nat → Option (Option Nat)) :
    (fuel : Nat) → (start : Option Nat) → Option (Option Nat)
  | 0, _ => none
  | fuel + 1, start =>
      match same start with
      | none => none
      | some none => some none
      | some (some start) =>
          match (h.node start).children with
          | some child => some (some child)
          | none => levelLoop same fuel (some start)

/-- `mpt_gnode_samelevel` -/
def samelevel (fuel : Nat) : (up : Nat) → (start : Option Nat) → Option (Option Nat)
  | _, none => some none
  | 0, some start => some (h.node start).next
  | up + 1, some start =>
      if (h.node start).next.isSome then some (h.node start).next
      else h.levelLoop (samelevel fuel up) fuel (h.node start).parent

/-- `mpt_gnode_sublevel`, with `left` nodes to look at. -/
def sublevel (fuel up : Nat) : (left : Nat) → (start : Option Nat) → Option (Option Nat)
  | _, none => some none
  | 0, some _ => none
  | left + 1, some start =>
      match (h.node start).children with
      | some child => some (some child)
      | none =>
          match h.samelevel fuel up (some start) with
          | none => none
          | some start => sublevel fuel up left start

variable {σ : Type u} (flags : TraverseFlags) (traverse : NodeHandler σ)

/-- The inner loop of `_mpt_gnode_traverse_level`, with `left` nodes to process. -/
def levelRow (fuel up depth : Nat) : (left : Nat) → (curr : Option Nat) → σ → Outcome σ
  | _, none, data => some (none, data)
  | 0, some _, _ => none
  | left + 1, some curr, data =>
      -- process current node
      match h.visit flags traverse curr depth data with
      | (none, data) =>
          -- find next node in current level if current has no successor
          match (if (h.node curr).next.isNone then h.samelevel fuel up (some curr)
            else some (h.node curr).next) with
          | none => none
          | some curr => levelRow fuel up depth left curr data
      | ret => some ret

/-- `_mpt_gnode_traverse_level`, with `rows` levels to process. -/
def traverseLevel (fuel : Nat) : (rows up depth : Nat) → (node : Option Nat) → σ → Outcome σ
  | _, _, _, none, data => some (none, data)
  | 0, _, _, some _, _ => none
  | rows + 1, up, depth, some node, data =>
      match h.levelRow flags traverse fuel up depth fuel (some node) data with
      | some (none, data) =>
          -- get first node in next sublevel
          match h.sublevel fuel up fuel (some node) with
          | none => none
          | some node => traverseLevel fuel rows (up + 1) (depth + 1) node data
      | ret => ret

/-- `mpt_gnode_traverse`: without node or handler nothing is done (`EFAULT`). -/
def gnodeTraverse (fuel : Nat) (node : Option Nat) (traverse : Option (NodeHandler σ)) (data : σ) :
    Outcome σ :=
  match node, traverse with
  | some node, some traverse =>
      match flags.order with
      | .in_ => h.nextLoop (h.traverseIn flags traverse fuel 0) fuel (some node) data
      | .pre => h.nextLoop (h.traversePre flags traverse fuel 0) fuel (some node) data
      | .post => h.nextLoop (h.traversePost flags traverse fuel 0) fuel (some node) data
      | .level => h.traverseLevel flags traverse fuel fuel 0 0 (some node) data
  | _, _ => some (none, data)

end Nodes

namespace Forest

/-- The trees of one level, from left to right. -/
def levelTrees (f : Forest) : (level : Nat) → List (Nat × Forest)
  | 0 => f.trees
  | level + 1 => (f.levelTrees level).flatMap fun t => t.2.trees

/-- The visits in pre-order. -/
def preOrder (f : Forest) : List Visit := (f.walk preArrange 0).flatten

/-- The visits sorted by their depth, each level from left to right. -/
def levelOrder (f : Forest) : List Visit :=
  (List.range f.ids.length).flatMap fun d => f.preOrder.filter fun v => v.depth = d

/-- The order of the visits. -/
def visits (f : Forest) : Order → List Visit
  | .post => (f.walk postArrange 0).flatten
  | .pre => f.preOrder
  | .in_ => (f.walk inArrange 0).flatten
  | .level => f.levelOrder

@[simp] theorem levelTrees_nil (level : Nat) : nil.levelTrees level = [] := by
  induction level with
  | zero => rfl
  | succ level ih => rw [levelTrees, ih, List.flatMap_nil]

theorem levelTrees_cons (i : Nat) (kids rest : Forest) (level : Nat) :
    (cons i kids rest).levelTrees (level + 1) =
      kids.levelTrees level ++ rest.levelTrees (level + 1) := by
  induction level with
  | zero => rfl
  | succ level ih => rw [levelTrees, ih, List.flatMap_append, ← levelTrees, ← levelTrees]

theorem length_levelTrees (f : Forest) (level : Nat) :
    (f.levelTrees level).length ≤ f.ids.length := by
  induction f generalizing level with
  | nil => simp
  | cons i kids rest ihk ihr =>
      rw [ids_cons, List.length_cons, List.length_append]
      cases level with
      | zero =>
          have := ihr 0
          simp only [levelTrees, trees_cons, List.length_cons] at this ⊢
          omega
      | succ level =>
          have below := ihk level
          have behind := ihr (level + 1)
          rw [levelTrees_cons, List.length_append]
          omega

/-- There are no more levels than nodes. -/
theorem levelTrees_end (f : Forest) {level : Nat} (deep : f.ids.length ≤ level) :
    f.levelTrees level = [] := by
  induction f generalizing level with
  | nil => simp
  | cons i kids rest ihk ihr =>
      rw [ids_cons, List.length_cons, List.length_append] at deep
      obtain ⟨n, rfl⟩ := Nat.exists_eq_add_of_le' (show 1 ≤ level by omega)
      rw [levelTrees_cons, ihk (by omega), ihr (by omega), List.append_nil]

/-- The visits of a forest in pre-order, at some depth. -/
theorem walk_pre_cons (i : Nat) (kids rest : Forest) (depth : Nat) :
    ((cons i kids rest).walk preArrange depth).flatten =
      visit depth (i, kids) :: (kids.walk preArrange (depth + 1)).flatten ++
        (rest.walk preArrange depth).flatten := by
  rw [walk, List.flatten_cons, preArrange]

theorem depth_walk (f : Forest) (depth : Nat) :
    ∀ v ∈ (f.walk preArrange depth).flatten, depth ≤ v.depth ∧ v.depth < depth + f.ids.length := by
  induction f generalizing depth with
  | nil => exact fun v mem => nomatch mem
  | cons i kids rest ihk ihr =>
      intro v mem
      rw [walk_pre_cons] at mem
      rw [ids_cons, List.length_cons, List.length_append]
      rcases List.mem_append.mp mem with mem | mem
      · rcases List.mem_cons.mp mem with rfl | mem
        · simp only [visit]
          omega
        · have := ihk (depth + 1) v mem
          omega
      · have := ihr depth v mem
        omega

/-- The trees of a level are the visits at its depth. -/
theorem filter_depth (f : Forest) (depth level : Nat) :
    (f.walk preArrange depth).flatten.filter (fun v => v.depth = depth + level) =
      (f.levelTrees level).map (visit (depth + level)) := by
  induction f generalizing depth level with
  | nil => simp [walk]
  | cons i kids rest ihk ihr =>
      rw [walk_pre_cons, List.cons_append]
      cases level with
      | zero =>
          have deeper : (kids.walk preArrange (depth + 1)).flatten.filter
              (fun v => v.depth = depth + 0) = [] := by
            refine List.filter_eq_nil_iff.mpr fun v mem => ?_
            have := (depth_walk kids (depth + 1) v mem).1
            simp only [decide_eq_true_eq]
            omega
          rw [List.filter_cons_of_pos (by simp [visit]), List.filter_append, deeper, ihr depth 0]
          rfl
      | succ level =>
          have below := ihk (depth + 1) level
          rw [show depth + 1 + level = depth + (level + 1) by omega] at below
          rw [List.filter_cons_of_neg (by simp [visit]), List.filter_append, ihr depth (level + 1),
            below, levelTrees_cons, List.map_append]

theorem levelOrder_eq (f : Forest) : f.levelOrder =
    (List.range f.ids.length).flatMap fun d => (f.levelTrees d).map (visit d) := by
  have level (d : Nat) := filter_depth f 0 d
  simp only [Nat.zero_add] at level
  simp only [levelOrder, preOrder, level]

/-- The nodes come in pre-order. -/
theorem map_preOrder (f : Forest) : f.preOrder.map Visit.node = f.ids := by
  have at_ (depth : Nat) : (f.walk preArrange depth).flatten.map Visit.node = f.ids := by
    induction f generalizing depth with
    | nil => rfl
    | cons i kids rest ihk ihr =>
        rw [walk_pre_cons, List.map_append, List.map_cons, ihk, ihr]
        rfl
  exact at_ 0

/-- It does not matter where a node is put among the nodes below it. -/
theorem walk_perm {arrange : Visit → List (List Visit) → List Visit}
    (all : ∀ v below, (arrange v below).Perm (v :: below.flatten)) (f : Forest) (depth : Nat) :
    (f.walk arrange depth).flatten.Perm (f.walk preArrange depth).flatten := by
  induction f generalizing depth with
  | nil => exact .refl _
  | cons i kids rest ihk ihr =>
      rw [walk_pre_cons, walk, List.flatten_cons]
      refine .append ?_ (ihr depth)
      exact (all _ _).trans (.cons _ (ihk (depth + 1)))

/-- Sorting by depth keeps all visits. -/
theorem filter_perm (vs : List Visit) (n : Nat) :
    ((List.range n).flatMap fun d => vs.filter fun v => v.depth = d).Perm
      (vs.filter fun v => v.depth < n) := by
  induction n with
  | zero => simp
  | succ n ih =>
      have here : vs.filter (fun v => v.depth = n) =
          (vs.filter fun v => v.depth < n + 1).filter (fun v => ! decide (v.depth < n)) := by
        rw [List.filter_filter]
        refine List.filter_congr fun v _ => ?_
        by_cases eq : v.depth = n
        · simp [eq]
        · simp only [eq, decide_false]
          symm
          simp
          omega
      have before : vs.filter (fun v => v.depth < n) =
          (vs.filter fun v => v.depth < n + 1).filter (fun v => decide (v.depth < n)) := by
        rw [List.filter_filter]
        refine List.filter_congr fun v _ => ?_
        by_cases less : v.depth < n
        · simp [less, Nat.lt_succ_of_lt less]
        · simp [less]
      rw [List.range_succ, List.flatMap_append, List.flatMap_singleton]
      refine (ih.append_right _).trans ?_
      rw [here, before]
      exact List.filter_append_perm _ _

/-- All orders have the same visits. -/
theorem visits_perm (f : Forest) (order : Order) : (f.visits order).Perm f.preOrder := by
  cases order with
  | post =>
      refine walk_perm (fun v below => ?_) f 0
      exact List.perm_append_comm
  | pre => exact .refl _
  | in_ =>
      refine walk_perm (fun v below => ?_) f 0
      cases below with
      | nil => exact .refl _
      | cons first others => exact List.perm_middle
  | level =>
      refine (filter_perm f.preOrder f.ids.length).trans ?_
      rw [List.filter_eq_self.mpr]
      intro v mem
      have := (depth_walk f 0 v mem).2
      simpa using this

end Forest

section Level

open Visit (run calls)
open Forest (visit)

variable {h : Nodes} {up prev : Option Nat} {f : Forest}

/-- A node at the top and its successor. -/
theorem Linked.next_tree (l : Linked h up prev f) {a b : List (Nat × Forest)} {t : Nat × Forest}
    (eq : f.trees = a ++ t :: b) :
    (h.node t.1).next = b.head?.map Prod.fst ∧ (h.node t.1).parent = up := by
  induction f generalizing prev a with
  | nil => simp at eq
  | cons i kids rest _ ih =>
      obtain ⟨⟨_, after, above, _⟩, _, more⟩ := l
      cases a with
      | nil =>
          obtain ⟨rfl, rfl⟩ := List.cons.inj eq
          refine ⟨after.trans ?_, above⟩
          cases rest <;> rfl
      | cons _ a => exact ih more (List.cons.inj eq).2

/-- Every tree of every level is linked. -/
theorem Linked.level (l : Linked h up prev f) (level : Nat) :
    ∀ t ∈ f.levelTrees level, (h.node t.1).children = t.2.head? ∧ Linked h (some t.1) none t.2 := by
  induction level with
  | zero => exact l.tree
  | succ level ih =>
      intro t mem
      obtain ⟨p, inside, mem⟩ := List.mem_flatMap.mp mem
      exact (ih p inside).2.tree t mem

/-- Where an element of a joined list comes from. -/
theorem flatMap_split {α β : Type} {g : α → List β} {l : List α} {a b : List β} {t : β}
    (eq : l.flatMap g = a ++ t :: b) :
    ∃ a' p b' a'' b'', l = a' ++ p :: b' ∧ g p = a'' ++ t :: b'' ∧ b = b'' ++ b'.flatMap g := by
  induction l generalizing a with
  | nil => simp at eq
  | cons p l ih =>
      rw [List.flatMap_cons] at eq
      rcases List.append_eq_append_iff.mp eq with ⟨c, eq', rest⟩ | ⟨c, eq', rest⟩
      · obtain ⟨a', q, b', a'', b'', rfl, here, behind⟩ := ih rest
        exact ⟨p :: a', q, b', a'', b'', rfl, here, behind⟩
      · cases c with
        | nil =>
            obtain ⟨a', q, b', a'', b'', rfl, here, behind⟩ := ih (a := []) rest.symm
            exact ⟨p :: a', q, b', a'', b'', rfl, here, behind⟩
        | cons x c =>
            rw [List.cons_append] at rest
            obtain ⟨same, more⟩ := List.cons.inj rest
            subst same
            exact ⟨[], p, l, a, c, rfl, eq', more⟩

/-- The loop finds the first node below the trees that follow in a level. -/
theorem levelLoop_spec (l : Linked h up prev f) {level : Nat}
    {same : Option Nat → Option (Option Nat)} {a b : List (Nat × Forest)} {t : Nat × Forest}
    (found : ∀ a t b, f.levelTrees level = a ++ t :: b →
      same (some t.1) = some (b.head?.map Prod.fst))
    (eq : f.levelTrees level = a ++ t :: b) {fuel : Nat} (enough : b.length < fuel) :
    h.levelLoop same fuel (some t.1) =
      some ((b.flatMap fun t => t.2.trees).head?.map Prod.fst) := by
  induction b generalizing a t fuel with
  | nil =>
      obtain ⟨n, rfl⟩ := Nat.exists_eq_add_of_le' enough
      simp only [Nodes.levelLoop, found a t [] eq, List.head?_nil, Option.map_none]
      rfl
  | cons q b ih =>
      obtain ⟨n, rfl⟩ := Nat.exists_eq_add_of_le' (show 1 ≤ fuel by omega)
      have children := (l.level level q (by rw [eq]; simp)).1
      simp only [Nodes.levelLoop, found a t (q :: b) eq, List.head?_cons, Option.map_some, children,
        List.flatMap_cons]
      cases kids : q.2 with
      | cons c below rest => rfl
      | nil =>
          have next : f.levelTrees level = (a ++ [t]) ++ q :: b := by simp [eq]
          exact ih next (by simpa using enough)

/-- The next node of a level is found from any of its nodes. -/
theorem samelevel_spec (l : Linked h up prev f) {level : Nat} {a b : List (Nat × Forest)}
    {t : Nat × Forest} (eq : f.levelTrees level = a ++ t :: b) {fuel : Nat}
    (enough : f.ids.length ≤ fuel) :
    h.samelevel fuel level (some t.1) = some (b.head?.map Prod.fst) := by
  induction level generalizing a t b with
  | zero => exact congrArg some (l.next_tree eq).1
  | succ level ih =>
      obtain ⟨a', p, b', a'', b'', place, here, rfl⟩ := flatMap_split eq
      have linked := (l.level level p (by rw [place]; simp)).2
      obtain ⟨after, above⟩ := linked.next_tree here
      rw [Nodes.samelevel, after, above]
      cases b'' with
      | cons q b'' => rfl
      | nil =>
          have short := f.length_levelTrees level
          rw [place, List.length_append, List.length_cons] at short
          exact levelLoop_spec l (fun a t b eq => ih eq) place (by omega)

/-- The first node of the next level. -/
theorem sublevel_spec (l : Linked h up prev f) {level : Nat} {a b : List (Nat × Forest)}
    (eq : f.levelTrees level = a ++ b) {fuel : Nat} (enough : f.ids.length ≤ fuel) {left : Nat}
    (room : b.length ≤ left) :
    h.sublevel fuel level left (b.head?.map Prod.fst) =
      some ((b.flatMap fun t => t.2.trees).head?.map Prod.fst) := by
  induction b generalizing a left with
  | nil => cases left <;> rfl
  | cons t b ih =>
      obtain ⟨n, rfl⟩ := Nat.exists_eq_add_of_le' (show 1 ≤ left from Nat.le_trans (by simp) room)
      have children := (l.level level t (by rw [eq]; simp)).1
      simp only [List.head?_cons, Option.map_some, Nodes.sublevel, children, List.flatMap_cons]
      cases kids : t.2 with
      | cons c below rest => rfl
      | nil =>
          simp only [Forest.head?, samelevel_spec l eq enough]
          exact ih (a := a ++ [t]) (by simp [eq]) (by simpa using room)

variable {σ : Type u} (flags : TraverseFlags) (traverse : NodeHandler σ)

/-- The inner loop processes what is left of a level. -/
theorem levelRow_run (l : Linked h up prev f) {level : Nat} {a b : List (Nat × Forest)}
    (eq : f.levelTrees level = a ++ b) {fuel : Nat} (enough : f.ids.length ≤ fuel) {left : Nat}
    (room : b.length ≤ left) (depth : Nat) (data : σ) :
    h.levelRow flags traverse fuel level depth left (b.head?.map Prod.fst) data =
      some (run traverse (calls flags (b.map (visit depth))) data) := by
  induction b generalizing a left data with
  | nil => cases left <;> rfl
  | cons t b ih =>
      obtain ⟨n, rfl⟩ := Nat.exists_eq_add_of_le' (show 1 ≤ left from Nat.le_trans (by simp) room)
      have children := (l.level level t (by rw [eq]; simp)).1
      have same := samelevel_spec l eq enough
      -- the successor is what the search on the same level would find
      have next : (if (h.node t.1).next.isNone then h.samelevel fuel level (some t.1)
          else some (h.node t.1).next) = some (b.head?.map Prod.fst) := by
        by_cases last : (h.node t.1).next.isNone = true
        · rw [if_pos last, same]
        · rw [if_neg last, ← same]
          cases level with
          | zero => rfl
          | succ level =>
              rw [Nodes.samelevel, if_pos]
              rw [Option.isSome_iff_ne_none]
              simpa using last
      simp only [List.head?_cons, Option.map_some, Nodes.levelRow, visit_run flags traverse children, next]
      have split : calls flags ((t :: b).map (visit depth)) =
          calls flags [visit depth t] ++ calls flags (b.map (visit depth)) := by
        rw [← Visit.calls_append]
        rfl
      rw [split, Visit.run_append]
      rcases run traverse (calls flags [visit depth t]) data with ⟨ret, data'⟩
      cases ret with
      | some ret => rfl
      | none => exact ih (a := a ++ [t]) (by simp [eq]) (by simpa using room) data'

/-- One level is processed after the other. -/
theorem traverseLevel_run (l : Linked h up prev f) {fuel : Nat} (enough : f.ids.length ≤ fuel)
    (level : Nat) {rows n : Nat} (deep : f.ids.length ≤ level + n) (room : n ≤ rows) (data : σ) :
    h.traverseLevel flags traverse fuel rows level level
        ((f.levelTrees level).head?.map Prod.fst) data =
      some (run traverse (calls flags ((List.range' level n).flatMap fun d =>
        (f.levelTrees d).map (visit d))) data) := by
  induction n generalizing level rows data with
  | zero =>
      have none : f.levelTrees level = [] := f.levelTrees_end deep
      rw [none]
      cases rows <;> rfl
  | succ n ih =>
      obtain ⟨rows, rfl⟩ := Nat.exists_eq_add_of_le' (show 1 ≤ rows by omega)
      have further := ih (level + 1) (show f.ids.length ≤ level + 1 + n by omega)
        (show n ≤ rows by omega)
      have short := Nat.le_trans (f.length_levelTrees level) enough
      have whole : f.levelTrees level = [] ++ f.levelTrees level := rfl
      have row := levelRow_run flags traverse l whole enough short level data
      have next := sublevel_spec l whole enough short
      rw [List.range'_succ, List.flatMap_cons, Visit.calls_append, Visit.run_append]
      cases first : f.levelTrees level with
      | nil =>
          have none := further data
          rw [Forest.levelTrees, first] at none
          simp only [List.map_nil, Visit.calls_nil, Visit.run_nil, ← none]
          cases rows <;> rfl
      | cons t b =>
          rw [first] at row next
          simp only [List.head?_cons, Option.map_some] at row next ⊢
          rw [Nodes.traverseLevel, row]
          rcases run traverse (calls flags ((t :: b).map (visit level))) data with ⟨ret, data'⟩
          cases ret with
          | some ret => rfl
          | none =>
              simp only [next]
              rw [← first]
              exact further data'

end Level

/-- A traversal calls the handler for the nodes that the flags ask for, in the order that they
    ask for, until it returns something else than zero.  Every order has each node once, with
    its depth. -/
theorem gnodeTraverse_visits {σ : Type u} {h : Nodes} {up prev : Option Nat} {f : Forest}
    (l : Linked h up prev f) (nodup : f.ids.Nodup) (flags : TraverseFlags)
    (traverse : NodeHandler σ) (data : σ) {fuel : Nat} (enough : f.ids.length ≤ fuel) :
    h.gnodeTraverse flags fuel f.head? (some traverse) data =
        some (Visit.run traverse (Visit.calls flags (f.visits flags.order)) data) ∧
      ((f.visits flags.order).map Visit.node).Nodup ∧
      ∀ order, (f.visits order).Perm f.preOrder ∧ ((f.visits order).map Visit.node).Perm f.ids := by
  have nodes (order : Order) : ((f.visits order).map Visit.node).Perm f.ids := by
    have := (f.visits_perm order).map Visit.node
    rwa [f.map_preOrder] at this
  refine ⟨?_, (nodes flags.order).nodup_iff.mpr nodup, fun order => ⟨f.visits_perm order, nodes order⟩⟩
  have tops := Nat.le_trans f.length_tops_le enough
  have recursive {process : (fuel depth node : Nat) → σ → Outcome σ}
      {arrange : Visit → List (List Visit) → List Visit}
      (arranges : Arranges h flags traverse process arrange) :
      h.nextLoop (process fuel 0) fuel f.head? data =
        some (Visit.run traverse (Visit.calls flags (f.walk arrange 0).flatten) data) := by
    rw [Forest.walk_eq]
    exact nextLoop_run flags traverse l (process_run flags traverse arranges l enough 0) tops data
  cases f with
  | nil =>
      have none (order : Order) : Forest.nil.visits order = [] := by
        cases order <;> rfl
      rw [none]
      rfl
  | cons i kids rest =>
      simp only [Nodes.gnodeTraverse, Forest.head?]
      cases flags.order with
      | post => exact recursive (post_arranges flags traverse)
      | pre => exact recursive (pre_arranges flags traverse)
      | in_ => exact recursive (in_arranges flags traverse)
      | level =>
          have levels := traverseLevel_run flags traverse l enough 0
            (Nat.le_of_eq (Nat.zero_add _).symm) enough data
          rw [← List.range_eq_range', ← Forest.levelOrder_eq] at levels
          exact levels

/-- A node with two children. -/
def pair : Nodes where
  node
    | 0 => { Nodes.single [] none with children := some 1 }
    | 1 => { Nodes.single [] none with next := some 2, parent := some 0 }
    | 2 => { Nodes.single [] none with prev := some 1, parent := some 0 }
    | _ => Nodes.single [] none
  size := 3

/-- The forest of these nodes. -/
def pairForest : Forest := .cons 0 (.cons 1 .nil (.cons 2 .nil .nil)) .nil

theorem pair_linked : Linked pair none none pairForest := by
  simp [pairForest, Linked, pair, Nodes.single, Forest.head?]

/-- Counting the leafs of two levels. -/
theorem gnodeTraverse_pair :
    pair.gnodeTraverse ⟨.level, true, false⟩ 3 pairForest.head? (some fun _ n _ => (0, n + 1)) 0 =
        some (Visit.run (fun _ n _ => (0, n + 1))
          (Visit.calls ⟨.level, true, false⟩ (pairForest.visits .level)) 0) ∧
      ((pairForest.visits .level).map Visit.node).Nodup ∧
      ∀ order, (pairForest.visits order).Perm pairForest.preOrder ∧
        ((pairForest.visits order).map Visit.node).Perm pairForest.ids :=
  gnodeTraverse_visits pair_linked (by decide) ⟨.level, true, false⟩ (fun _ n _ => (0, n + 1)) 0
    (by decide)

end Mpt.Tree
