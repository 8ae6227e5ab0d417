import Mpt.Tree.Switch

/-! # Restoring the links of a tree

`mpt_gnode_relink` sets the links to the parent and to the previous node from the links to the
children and to the next node, in one loop that goes up through the links it has set.
-/

namespace Mpt.Tree

namespace Nodes

/-- The next node gets its parent and the link back. -/
def relinkNext (h : Nodes) (node : Nat) : Nodes :=
  match (h.node node).next with
  | some next => (h.setParent next (h.node node).parent).setPrev next (some node)
  | none => h

/-- The first part of the loop of `mpt_gnode_relink`: from a node with children to the first of
    these. -/
def relinkDown (h : Nodes) (node : Nat) : Nodes × Nat :=
  match (h.node node).children with
  | some child => ((h.setParent child (some node)).relinkNext node, child)
  | none => (h, node)

/-- The second part: to the next node, or to the one next to the parent.  There is no result without
    a parent. -/
def relinkStep (h : Nodes) (node : Nat) : Option (Nodes × Option Nat) :=
  match (h.node node).next with
  | some next => some (h.relinkNext node, some next)
  | none =>
      match (h.node node).parent with
      | some parent => some (h, (h.node parent).next)
      | none => none

/-- The loop of `mpt_gnode_relink`, and the nodes that it visits. -/
def relinkLoop (start : Nat) : (fuel : Nat) → (h : Nodes) → (node : Option Nat) → (visited : List Nat) →
    Option (Nodes × List Nat)
  | _, h, none, visited => some (h, visited)
  | 0, _, some _, _ => none
  | fuel + 1, h, some node, visited =>
      if node = start then
        some (h, visited)
      else
        let (h, last) := h.relinkDown node
        match h.relinkStep last with
        | some (h, next) => relinkLoop start fuel h next (visited ++ [node, last])
        | none => none

/-- `mpt_gnode_relink` -/
def gnodeRelink (h : Nodes) (fuel : Nat) (node : Option Nat) : Option (Nodes × List Nat) :=
  match node with
  | none => some (h, [])
  | some start =>
      let h := match (h.node start).children with
        | some child => h.setParent child (some start)
        | none => h
      h.relinkLoop start fuel (h.node start).children []

end Nodes

/-- The links to the children and to the next nodes are those of a forest. -/
def Shaped (h : Nodes) : Forest → Prop
  | .nil => True
  | .cons i kids rest =>
      ((h.node i).next = rest.head? ∧ (h.node i).children = kids.head?) ∧ Shaped h kids ∧ Shaped h rest

namespace Forest

/-- The parent of a node of a forest. -/
def upOf (up : Option Nat) : Forest → Nat → Option Nat
  | nil, _ => none
  | cons i kids rest, j =>
      if j = i then up else if j ∈ kids.ids then kids.upOf (some i) j else rest.upOf up j

/-- The node before a node of a forest. -/
def backOf (prev : Option Nat) : Forest → Nat → Option Nat
  | nil, _ => none
  | cons i kids rest, j =>
      if j = i then prev else if j ∈ kids.ids then kids.backOf none j else rest.backOf (some i) j

/-- The loop comes back from the nodes of a list: the last one has no children, and it comes back
    from the children of each other one.  The children of a first child are not looked at. -/
def returns : Forest → Bool
  | nil => true
  | cons _ nil rest => rest.returns
  | cons _ (cons _ _ more) rest => more.returns && rest.head?.isSome && rest.returns

/-- The nodes of a list that get their parent, the first one apart. -/
def ups : Forest → List Nat
  | nil => []
  | cons _ nil rest => rest.head?.toList ++ rest.ups
  | cons _ (cons c _ more) rest =>
      c :: rest.head?.toList ++ (more.head?.toList ++ more.ups) ++
        if more.returns then rest.ups else []

/-- The nodes of a list that get the link back, the first one apart. -/
def backs : Forest → List Nat
  | nil => []
  | cons _ nil rest => rest.head?.toList ++ rest.backs
  | cons _ (cons _ _ more) rest =>
      rest.head?.toList ++ (more.head?.toList ++ more.backs) ++
        if more.returns then rest.backs else []

end Forest

/-- The parents and previous nodes that a forest has. -/
def Aims (parent back : Nat → Option Nat) : (up prev : Option Nat) → Forest → Prop
  | _, _, .nil => True
  | up, prev, .cons i kids rest =>
      (parent i = up ∧ back i = prev) ∧ Aims parent back (some i) none kids ∧
        Aims parent back up (some i) rest

section Aims

variable {parent back parent' back' : Nat → Option Nat} {up prev : Option Nat} {f : Forest}

theorem Aims.congr (aims : Aims parent back up prev f)
    (same : ∀ i ∈ f.ids, parent' i = parent i ∧ back' i = back i) : Aims parent' back' up prev f := by
  induction f generalizing up prev with
  | nil => trivial
  | cons i kids rest ihk ihr =>
      obtain ⟨⟨above, before⟩, below, more⟩ := aims
      obtain ⟨eq, eq'⟩ := same i (by simp)
      exact ⟨⟨eq.trans above, eq'.trans before⟩, ihk below fun j mem => same j (by simp [mem]),
        ihr more fun j mem => same j (by simp [mem])⟩

theorem aims_of (f : Forest) (up prev : Option Nat) (nodup : f.ids.Nodup) :
    Aims (f.upOf up) (f.backOf prev) up prev f := by
  induction f generalizing up prev with
  | nil => trivial
  | cons i kids rest ihk ihr =>
      obtain ⟨absent, nodup⟩ := List.nodup_cons.mp nodup
      obtain ⟨nodupK, nodupR, apart⟩ := List.nodup_append.mp nodup
      refine ⟨⟨by simp [Forest.upOf], by simp [Forest.backOf]⟩,
        (ihk (some i) none nodupK).congr fun j mem => ?_, (ihr up (some i) nodupR).congr fun j mem => ?_⟩
      · have ne : j ≠ i := fun eq => absent (by simp [← eq, mem])
        simp [Forest.upOf, Forest.backOf, ne, mem]
      · have ne : j ≠ i := fun eq => absent (by simp [← eq, mem])
        have out : j ∉ kids.ids := fun mem' => apart j mem' j mem rfl
        simp [Forest.upOf, Forest.backOf, ne, out]

/-- Links forward and backward make a forest. -/
theorem linked_iff {h : Nodes} (shape : Shaped h f) (aims : Aims parent back up prev f) :
    Linked h up prev f ↔ ∀ i ∈ f.ids, (h.node i).parent = parent i ∧ (h.node i).prev = back i := by
  induction f generalizing up prev with
  | nil => simp [Linked]
  | cons i kids rest ihk ihr =>
      obtain ⟨⟨after, children⟩, shapeK, shapeR⟩ := shape
      obtain ⟨⟨above, before⟩, below, more⟩ := aims
      rw [Linked, ihk shapeK below, ihr shapeR more]
      constructor
      · rintro ⟨⟨before', _, above', _⟩, left, right⟩ j mem
        rcases List.mem_cons.mp mem with rfl | mem
        · exact ⟨above'.trans above.symm, before'.trans before.symm⟩
        · rcases List.mem_append.mp mem with mem | mem
          · exact left j mem
          · exact right j mem
      · intro all
        obtain ⟨above', before'⟩ := all i (by simp)
        exact ⟨⟨before'.trans before, after, above'.trans above, children⟩,
          fun j mem => all j (by simp [mem]), fun j mem => all j (by simp [mem])⟩

end Aims

/-- Some nodes got their parents and some their previous nodes, and nothing else changed. -/
structure Relinked (parent back : Nat → Option Nat) (h h' : Nodes) (ups backs : List Nat) : Prop where
  next : ∀ i, (h'.node i).next = (h.node i).next
  children : ∀ i, (h'.node i).children = (h.node i).children
  parent : ∀ i, (h'.node i).parent = if i ∈ ups then parent i else (h.node i).parent
  prev : ∀ i, (h'.node i).prev = if i ∈ backs then back i else (h.node i).prev
  content : SameContent h h'

section Relinked

variable {parent back : Nat → Option Nat} {h h' h'' : Nodes} {ups backs ups' backs' : List Nat}

theorem Relinked.refl (h : Nodes) : Relinked parent back h h [] [] :=
  ⟨fun _ => rfl, fun _ => rfl, fun _ => by simp, fun _ => by simp, SameContent.refl h⟩

theorem Relinked.trans (first : Relinked parent back h h' ups backs)
    (second : Relinked parent back h' h'' ups' backs') :
    Relinked parent back h h'' (ups ++ ups') (backs ++ backs') where
  next i := (second.next i).trans (first.next i)
  children i := (second.children i).trans (first.children i)
  parent i := by
    rw [second.parent, first.parent]
    grind
  prev i := by
    rw [second.prev, first.prev]
    grind
  content := first.content.trans second.content

theorem Relinked.shaped (relinked : Relinked parent back h h' ups backs) {f : Forest}
    (shape : Shaped h f) : Shaped h' f := by
  induction f with
  | nil => trivial
  | cons i kids rest ihk ihr =>
      obtain ⟨⟨after, children⟩, shapeK, shapeR⟩ := shape
      exact ⟨⟨(relinked.next i).trans after, (relinked.children i).trans children⟩, ihk shapeK,
        ihr shapeR⟩

/-- A parent that is right stays so. -/
theorem Relinked.keeps (relinked : Relinked parent back h h' ups backs) {i : Nat}
    (right : (h.node i).parent = parent i) : (h'.node i).parent = parent i := by
  rw [relinked.parent]
  split
  · rfl
  · exact right

theorem relinked_parent {c : Nat} {v : Option Nat} (right : parent c = v) :
    Relinked parent back h (h.setParent c v) [c] [] := by
  refine ⟨fun i => by simp, fun i => by simp, fun i => ?_, fun i => by simp,
    (SameContent.refl h).setParent c v⟩
  rw [Nodes.parent_setParent]
  grind

/-- The next node gets the links that it should have. -/
theorem relinked_next {x : Nat} {rest : Forest} {up : Option Nat}
    (next : (h.node x).next = rest.head?) (above : (h.node x).parent = up)
    (aims : Aims parent back up (some x) rest) :
    Relinked parent back h (h.relinkNext x) rest.head?.toList rest.head?.toList := by
  cases rest with
  | nil =>
      rw [Nodes.relinkNext, next]
      exact Relinked.refl h
  | cons t kids more =>
      obtain ⟨⟨above', before⟩, _, _⟩ := aims
      rw [Nodes.relinkNext, next]
      refine ⟨fun i => by simp [Forest.head?], fun i => by simp [Forest.head?], fun i => ?_, fun i => ?_,
        ((SameContent.refl h).setParent t _).setPrev t _⟩
      · simp only [Forest.head?, Nodes.parent_setPrev, Nodes.parent_setParent, Option.toList_some,
          List.mem_singleton]
        grind
      · simp only [Forest.head?, Nodes.prev_setPrev, Nodes.prev_setParent, Option.toList_some,
          List.mem_singleton]
        grind

end Relinked

section Run

variable {parent back : Nat → Option Nat} {start : Nat}

theorem relinkLoop_none (h : Nodes) (fuel : Nat) (visited : List Nat) :
    h.relinkLoop start fuel none visited = some (h, visited) := by
  cases fuel <;> rfl

/-- The loop does its work on a list and goes on behind the parent, or ends there. -/
def Runs (parent back : Nat → Option Nat) (start p : Nat) (h : Nodes) (node : Option Nat) (f : Forest) :
    Prop :=
  ∃ h' vis n, Relinked parent back h h' f.ups f.backs ∧ (∀ i ∈ vis, i ∈ f.ids) ∧
    ∀ fuel visited,
      h.relinkLoop start (n + fuel) node visited =
        if f.returns then h'.relinkLoop start fuel (h'.node p).next (visited ++ vis)
        else some (h', visited ++ vis)

/-- From a node the loop goes to the list behind it. -/
theorem relinkStep_runs {h : Nodes} {p x : Nat} {f : Forest}
    (ih : ∀ {h : Nodes} {v : Nat}, f.head? = some v → Shaped h f → (h.node v).parent = some p →
      Runs parent back start p h (some v) f)
    (shape : Shaped h f) (aims : Aims parent back (some p) (some x) f)
    (next : (h.node x).next = f.head?) (above : (h.node x).parent = some p) :
    ∃ h₁ node, h.relinkStep x = some (h₁, node) ∧
      Relinked parent back h h₁ f.head?.toList f.head?.toList ∧ Runs parent back start p h₁ node f := by
  cases f with
  | nil =>
      refine ⟨h, (h.node p).next, ?_, Relinked.refl h, h, [], 0, Relinked.refl h, by simp,
        fun fuel visited => by simp [Forest.returns]⟩
      rw [Nodes.relinkStep, next, above]
      rfl
  | cons t kids rest =>
      have first := relinked_next next above aims
      refine ⟨h.relinkNext x, some t, ?_, first, ih rfl (first.shaped shape) ?_⟩
      · rw [Nodes.relinkStep, next]
        rfl
      · rw [first.parent]
        simp [Forest.head?, aims.1.1]

theorem relinkLoop_runs (f : Forest) : ∀ {h : Nodes} {p v : Nat} {prev : Option Nat},
    Aims parent back (some p) prev f → start ∉ f.ids → f.head? = some v → Shaped h f →
    (h.node v).parent = some p → Runs parent back start p h (some v) f := by
  induction f using Forest.returns.induct with
  | case1 =>
      intro h p v prev _ _ head
      cases head
  | case2 v rest ih =>
      intro h p v' prev aims out head shape above
      obtain rfl : v = v' := Option.some.inj head
      obtain ⟨⟨after, children⟩, _, shapeR⟩ := shape
      simp only [Forest.ids_cons, Forest.ids_nil, List.nil_append, List.mem_cons, not_or] at out
      obtain ⟨h₁, node, step, first, h', vis, n, relinked, part, run⟩ := relinkStep_runs
        (fun head shape above => ih aims.2.2 out.2 head shape above) shapeR aims.2.2 after above
      refine ⟨h', v :: v :: vis, n + 1, first.trans relinked, ?_, fun fuel visited => ?_⟩
      · intro i mem
        simp only [List.mem_cons] at mem
        rcases mem with rfl | rfl | mem
        · simp
        · simp
        · simp [part i mem]
      · have down : h.relinkDown v = (h, v) := by
          rw [Nodes.relinkDown, children]
          rfl
        rw [Nat.add_right_comm, Nodes.relinkLoop, if_neg (Ne.symm out.1), down]
        simp only [step]
        rw [run, List.append_assoc]
        rfl
  | case3 v c ck more rest ihM ihR =>
      intro h p v' prev aims out head shape above
      obtain rfl : v = v' := Option.some.inj head
      obtain ⟨⟨after, children⟩, ⟨⟨next, _⟩, _, shapeM⟩, shapeR⟩ := shape
      obtain ⟨⟨aboveV, _⟩, ⟨⟨aboveC, _⟩, _, aimsM⟩, aimsR⟩ := aims
      simp only [Forest.ids_cons, List.mem_cons, List.mem_append, not_or] at out
      -- to the first child
      have child : Relinked parent back h (h.setParent c (some v)) [c] [] := relinked_parent aboveC
      have link := relinked_next ((child.next v).trans after)
        ((child.keeps (above.trans aboveV.symm)).trans aboveV) aimsR
      have down := child.trans link
      have parentC : ((Nodes.relinkNext (h.setParent c (some v)) v).node c).parent = some v := by
        rw [down.parent]
        simp [aboveC]
      -- to the other children
      obtain ⟨h₁, node, step, first, h₂, vis, n, relinked, part, run⟩ := relinkStep_runs
        (fun head shape above => ihM aimsM out.2.1.2.2 head shape above) (down.shaped shapeM) aimsM
        ((down.next c).trans next) parentC
      have below := (down.trans first).trans relinked
      have descend : h.relinkDown v = ((h.setParent c (some v)).relinkNext v, c) := by
        rw [Nodes.relinkDown, children]
        rfl
      have nextV : (h₂.node v).next = rest.head? := (below.next v).trans after
      have enter : ∀ fuel visited, h.relinkLoop start (n + fuel + 1) (some v) visited =
          if more.returns then h₂.relinkLoop start fuel rest.head? (visited ++ ([v, c] ++ vis))
          else some (h₂, visited ++ ([v, c] ++ vis)) := by
        intro fuel visited
        rw [Nodes.relinkLoop, if_neg (Ne.symm out.1), descend]
        simp only [step]
        rw [run, nextV, List.append_assoc]
      have seen : ∀ i ∈ [v, c] ++ vis, i ∈ (Forest.cons v (.cons c ck more) rest).ids := by
        intro i mem
        simp only [List.mem_append, List.mem_cons, List.not_mem_nil, or_false] at mem
        rcases mem with (rfl | rfl) | mem
        · simp
        · simp
        · simp [part i mem]
      cases back_ : more.returns with
      | false =>
          refine ⟨h₂, [v, c] ++ vis, n + 1, ?_, seen, fun fuel visited => ?_⟩
          · simpa [Forest.ups, Forest.backs, back_] using below
          · rw [Nat.add_right_comm, enter]
            simp [Forest.returns, back_]
      | true =>
          cases rest with
          | nil =>
              refine ⟨h₂, [v, c] ++ vis, n + 1, ?_, seen, fun fuel visited => ?_⟩
              · simpa [Forest.ups, Forest.backs, back_] using below
              · rw [Nat.add_right_comm, enter]
                simp [Forest.returns, back_, Forest.head?, relinkLoop_none]
          | cons r rk rs =>
              have parentR : (h₂.node r).parent = some p := by
                rw [below.parent]
                simp [Forest.head?, aimsR.1.1]
              obtain ⟨h₃, vis', n', relinked', part', run'⟩ := ihR aimsR out.2.2 rfl
                (below.shaped shapeR) parentR
              refine ⟨h₃, [v, c] ++ vis ++ vis', n + n' + 1, ?_, ?_, fun fuel visited => ?_⟩
              · simpa [Forest.ups, Forest.backs, back_] using below.trans relinked'
              · intro i mem
                rcases List.mem_append.mp mem with mem | mem
                · exact seen i mem
                · simp only [Forest.ids_cons, List.mem_cons, List.mem_append]
                  have := part' i mem
                  simp only [Forest.ids_cons, List.mem_cons, List.mem_append] at this
                  grind
              · have eq : n + n' + 1 + fuel = n + (n' + fuel) + 1 := by omega
                rw [eq, enter, if_pos back_]
                have go := run' fuel (visited ++ ([v, c] ++ vis))
                rw [Forest.head?, go]
                simp [Forest.returns, back_, Forest.head?]

/-- More fuel does not change a result. -/
theorem relinkLoop_more {fuel : Nat} {h : Nodes} {node : Option Nat} {visited : List Nat}
    {r : Nodes × List Nat} (run : h.relinkLoop start fuel node visited = some r) (k : Nat) :
    h.relinkLoop start (fuel + k) node visited = some r := by
  induction fuel generalizing h node visited with
  | zero =>
      cases node with
      | none => rw [relinkLoop_none] at run ⊢; exact run
      | some i => cases run
  | succ fuel ih =>
      cases node with
      | none => rw [relinkLoop_none] at run ⊢; exact run
      | some i =>
          rw [Nat.add_right_comm]
          rw [Nodes.relinkLoop] at run ⊢
          by_cases stop : i = start
          · rw [if_pos stop] at run ⊢
            exact run
          · rw [if_neg stop] at run ⊢
            simp only at run ⊢
            cases step : (h.relinkDown i).1.relinkStep (h.relinkDown i).2 with
            | none => rw [step] at run; cases run
            | some t =>
                rw [step] at run
                exact ih run

/-- What was visited stays so. -/
theorem relinkLoop_visited {fuel : Nat} {h h' : Nodes} {node : Option Nat} {visited visited' : List Nat}
    (run : h.relinkLoop start fuel node visited = some (h', visited')) :
    ∀ i ∈ visited, i ∈ visited' := by
  induction fuel generalizing h node visited with
  | zero =>
      cases node with
      | none =>
          cases run
          exact fun i mem => mem
      | some i => cases run
  | succ fuel ih =>
      cases node with
      | none =>
          cases run
          exact fun i mem => mem
      | some j =>
          rw [Nodes.relinkLoop] at run
          by_cases stop : j = start
          · rw [if_pos stop] at run
            cases run
            exact fun i mem => mem
          · rw [if_neg stop] at run
            simp only at run
            cases step : (h.relinkDown j).1.relinkStep (h.relinkDown j).2 with
            | none => rw [step] at run; cases run
            | some t =>
                rw [step] at run
                exact fun i mem => ih run i (List.mem_append_left _ mem)

/-- The loop visits the node where it begins. -/
theorem relinkLoop_first {fuel i : Nat} {h h' : Nodes} {visited visited' : List Nat} (ne : i ≠ start)
    (run : h.relinkLoop start fuel (some i) visited = some (h', visited')) : i ∈ visited' := by
  cases fuel with
  | zero => cases run
  | succ fuel =>
      rw [Nodes.relinkLoop, if_neg ne] at run
      simp only at run
      cases step : (h.relinkDown i).1.relinkStep (h.relinkDown i).2 with
      | none => rw [step] at run; cases run
      | some t =>
          rw [step] at run
          exact relinkLoop_visited run i (by simp)

/-- The links below a node are restored, and no other node is visited or changed. -/
def Restores (h : Nodes) (start : Nat) (f : Forest) : Prop :=
  ∃ fuel h' visited, h.gnodeRelink fuel (some start) = some (h', visited) ∧
    (∀ i ∈ visited, i ∈ f.ids) ∧ Linked h' (some start) none f ∧
    (∀ i, i ∉ f.ids → h'.node i = h.node i) ∧ SameContent h h'

/-- The loop does not come back to a start node that another one is next to, and the links that it does
    not set are right. -/
def Restorable (h : Nodes) (start : Nat) (f : Forest) : Prop :=
  (f ≠ .nil → f.returns = true → ∀ t, (h.node start).next = some t → t = start) ∧
    ∀ i ∈ f.ids,
      (i ∈ f.head?.toList ++ f.ups ∨ (h.node i).parent = f.upOf (some start) i) ∧
      (i ∈ f.backs ∨ (h.node i).prev = f.backOf none i)

theorem mem_ups (f : Forest) {i : Nat} (mem : i ∈ f.head?.toList ++ f.ups) : i ∈ f.ids := by
  induction f using Forest.returns.induct with
  | case1 => cases mem
  | case2 v rest ih => grind [Forest.ups, Forest.head?, Forest.ids_cons]
  | case3 v c ck more rest ihM ihR => grind [Forest.ups, Forest.head?, Forest.ids_cons]

theorem mem_backs (f : Forest) {i : Nat} (mem : i ∈ f.head?.toList ++ f.backs) : i ∈ f.ids := by
  induction f using Forest.returns.induct with
  | case1 => cases mem
  | case2 v rest ih => grind [Forest.backs, Forest.head?, Forest.ids_cons]
  | case3 v c ck more rest ihM ihR => grind [Forest.backs, Forest.head?, Forest.ids_cons]

/-- A loop that comes to nothing, or to where it started, ends. -/
theorem relinkLoop_end {fuel : Nat} {h : Nodes} {node : Option Nat} {visited : List Nat}
    {r : Nodes × List Nat} (last : ∀ t, node = some t → t = start)
    (run : h.relinkLoop start fuel node visited = some r) : r = (h, visited) := by
  cases node with
  | none =>
      rw [relinkLoop_none] at run
      exact (Option.some.inj run).symm
  | some t =>
      cases fuel with
      | zero => cases run
      | succ fuel =>
          rw [Nodes.relinkLoop, if_pos (last t rfl)] at run
          exact (Option.some.inj run).symm

variable {h : Nodes} {f : Forest}

/-- What the function does to a node with children, from which the loop may come back. -/
theorem gnodeRelink_run (shape : Shaped h f) (children : (h.node start).children = f.head?)
    (nodup : (start :: f.ids).Nodup) (some_ : f ≠ .nil) :
    ∃ h' vis n, Relinked (f.upOf (some start)) (f.backOf none) h h' (f.head?.toList ++ f.ups) f.backs ∧
      (∀ i ∈ vis, i ∈ f.ids) ∧ ∀ fuel, h.gnodeRelink (n + fuel) (some start) =
        if f.returns then h'.relinkLoop start fuel (h.node start).next vis else some (h', vis) := by
  obtain ⟨out, nodup⟩ := List.nodup_cons.mp nodup
  have aims := aims_of f (some start) none nodup
  cases f with
  | nil => exact absurd rfl some_
  | cons c ck more =>
      generalize (Forest.cons c ck more).upOf (some start) = parent at aims ⊢
      generalize (Forest.cons c ck more).backOf none = back at aims ⊢
      have first : Relinked parent back h (h.setParent c (some start)) [c] [] :=
        relinked_parent aims.1.1
      obtain ⟨h', vis, n, relinked, part, run⟩ := relinkLoop_runs (.cons c ck more) aims out rfl
        (first.shaped shape) (by rw [first.parent]; simp [aims.1.1])
      refine ⟨h', vis, n, first.trans relinked, part, fun fuel => ?_⟩
      rw [Nodes.gnodeRelink, children]
      simp only [Forest.head?, Nodes.children_setParent]
      rw [children, Forest.head?, run, relinked.next, first.next]
      simp

/-- The links of a tree are restored exactly when the loop stays below the start node and the links
    that it leaves as they are were right. -/
theorem relinks (shape : Shaped h f) (children : (h.node start).children = f.head?)
    (nodup : (start :: f.ids).Nodup) (outside : ∀ t, (h.node start).next = some t → t ∉ f.ids) :
    Restores h start f ↔ Restorable h start f := by
  have aims := aims_of f (some start) none (List.nodup_cons.mp nodup).2
  cases empty : f with
  | nil =>
      rw [empty] at children
      have none : h.gnodeRelink 0 (some start) = some (h, []) := by
        simp only [Nodes.gnodeRelink, children, Forest.head?]
        rfl
      refine iff_of_true ⟨0, h, [], none, by simp, trivial, fun _ _ => rfl, SameContent.refl h⟩
        ⟨fun ne => absurd rfl ne, by simp⟩
  | cons c ck more =>
      rw [← empty]
      have some_ : f ≠ .nil := by
        rw [empty]
        exact fun eq => by cases eq
      obtain ⟨h', vis, n, relinked, part, run⟩ := gnodeRelink_run shape children nodup some_
      have linked := linked_iff (relinked.shaped shape) aims
      constructor
      · rintro ⟨fuel, h'', visited, result, inside, linked'', _⟩
        have result' : h.gnodeRelink (n + fuel) (some start) = some (h'', visited) := by
          rw [Nat.add_comm]
          exact relinkLoop_more result n
        rw [run] at result'
        have home : f.returns = true → ∀ t, (h.node start).next = some t → t = start := by
          intro back t next
          by_contra ne
          rw [if_pos back, next] at result'
          exact outside t next (inside t (relinkLoop_first ne result'))
        have same : h'' = h' := by
          cases back : f.returns with
          | true =>
              rw [if_pos back] at result'
              exact congrArg Prod.fst (relinkLoop_end (home back) result')
          | false =>
              rw [back] at result'
              exact (congrArg Prod.fst (Option.some.inj result')).symm
        rw [same, linked] at linked''
        refine ⟨fun _ => home, fun i mem => ?_⟩
        obtain ⟨above, before⟩ := linked'' i mem
        rw [relinked.parent] at above
        rw [relinked.prev] at before
        constructor
        · by_cases set : i ∈ f.head?.toList ++ f.ups
          · exact .inl set
          · rw [if_neg set] at above
            exact .inr above
        · by_cases set : i ∈ f.backs
          · exact .inl set
          · rw [if_neg set] at before
            exact .inr before
      · rintro ⟨home, right⟩
        refine ⟨n + 1, h', vis, ?_, part, linked.mpr fun i mem => ?_, fun i out => ?_,
          relinked.content⟩
        · rw [run]
          cases back : f.returns with
          | false => rfl
          | true =>
              rw [if_pos rfl]
              cases next : (h.node start).next with
              | none => exact relinkLoop_none h' 1 vis
              | some t => rw [Nodes.relinkLoop, if_pos (home some_ back t next)]
        · obtain ⟨above, before⟩ := right i mem
          rw [relinked.parent, relinked.prev]
          constructor
          · split
            · rfl
            · exact above.resolve_left ‹_›
          · split
            · rfl
            · exact before.resolve_left ‹_›
        · refine node_eq (relinked.content i) ⟨relinked.next i, ?_, ?_, relinked.children i⟩
          · rw [relinked.prev, if_neg]
            exact fun mem => out (mem_backs f (List.mem_append_right _ mem))
          · rw [relinked.parent, if_neg]
            exact fun mem => out (mem_ups f mem)

/-- The tree of a node with two children, without the links back. -/
def bare : Nodes where
  node
    | 0 => { Nodes.single [] none with children := some 1 }
    | 1 => { Nodes.single [] none with next := some 2 }
    | _ => Nodes.single [] none
  size := 3

/-- The children of this node. -/
def bareForest : Forest := .cons 1 .nil (.cons 2 .nil .nil)

/-- All links of two children are set, since the first one has no other one before it. -/
theorem relinks_bare : (Restores bare 0 bareForest ↔ Restorable bare 0 bareForest) ∧
    Restorable bare 0 bareForest := by
  have shape : Shaped bare bareForest :=
    ⟨⟨rfl, rfl⟩, trivial, ⟨rfl, rfl⟩, trivial, trivial⟩
  have none : ∀ t, (bare.node 0).next = some t → t ∉ bareForest.ids := by
    intro t next
    cases next
  refine ⟨relinks shape rfl (by decide) none, ?_, ?_⟩
  · intro _ _ t next
    cases next
  · simp [bareForest, bare, Nodes.single, Forest.ups, Forest.backs, Forest.head?, Forest.upOf,
      Forest.backOf]

/-- An only child that has a link back to its parent. -/
def stray : Nodes where
  node
    | 0 => { Nodes.single [] none with children := some 1 }
    | 1 => { Nodes.single [] none with prev := some 0 }
    | _ => Nodes.single [] none
  size := 2

/-- The link back of a first child is not looked at. -/
theorem relink_stray : ¬ ∀ (h : Nodes) (start : Nat) (f : Forest), Shaped h f →
    (h.node start).children = f.head? → (start :: f.ids).Nodup →
    (∀ t, (h.node start).next = some t → t ∉ f.ids) → Restores h start f := by
  intro claim
  have shape : Shaped stray (.cons 1 .nil .nil) := ⟨⟨rfl, rfl⟩, trivial, trivial⟩
  have none : ∀ t, (stray.node 0).next = some t → t ∉ (Forest.cons 1 .nil .nil).ids := by
    intro t next
    cases next
  obtain ⟨fuel, h', visited, run, _, linked, _⟩ := claim stray 0 (.cons 1 .nil .nil) shape rfl
    (by decide) none
  have prev : (h'.node 1).prev = some 0 := by
    cases fuel with
    | zero => cases run
    | succ fuel =>
        have eq : stray.gnodeRelink (fuel + 1) (some 0) = some (stray.setParent 1 (some 0), [1, 1]) := by
          simp only [Nodes.gnodeRelink]
          exact relinkLoop_none (stray.setParent 1 (some 0)) fuel [1, 1]
        rw [eq] at run
        cases run
        rfl
  rw [linked.1.1] at prev
  cases prev

end Run

end Mpt.Tree
