import Mpt.Config.Stores
import Mpt.Config.ItemsRun

/-! # The two stores agree

Both are compared through the map of paths that the items have: a node is found where an
item is, with the same value.
-/

namespace Mpt.Config

variable {V : Type u}

/-! ## One part of a path -/

section Parts

variable {a b : List (Node V)} {x y : Node V} {nodes : List (Node V)} {name other : Name}
  {path : List Name}

/-- What follows the first part of a path. -/
def Node.query (node : Node V) (path : List Name) : Option (Option V) :=
  match path with
  | [] => some node.value
  | _ :: _ => configQuery path node.children

theorem query_find (name : Name) (path : List Name) (nodes : List (Node V)) :
    configQuery (name :: path) nodes =
      (nodes.find? fun node => node.name = name).bind fun node => node.query path := by
  conv_lhs => unfold configQuery nodeQuery
  cases nodes.find? fun (node : Node V) => node.name = name with
  | none => rfl
  | some node =>
      cases path with
      | nil => rfl
      | cons part path =>
          simp only [Option.bind_some, Node.query]
          unfold configQuery
          cases nodeQuery (part :: path) node.children with
          | none => rfl
          | some found => rfl

theorem query_here (named : x.name = name) (before : ∀ y ∈ a, y.name ≠ name) :
    configQuery (name :: path) (a ++ x :: b) = x.query path := by
  have found : (a ++ x :: b).find? (fun node => node.name = name) = some x :=
    find_divided (p := fun node : Node V => node.name = name) (decide_eq_true named)
      fun y mem same => before y mem (of_decide_eq_true same)
  rw [query_find, found]
  rfl

theorem query_other (first : x.name ≠ other) (second : y.name ≠ other) :
    configQuery (other :: path) (a ++ x :: b) = configQuery (other :: path) (a ++ y :: b) := by
  have same : (a ++ x :: b).find? (fun node => node.name = other) =
      (a ++ y :: b).find? fun node => node.name = other :=
    find_replaced (p := fun node : Node V => node.name = other)
      (fun same => first (of_decide_eq_true same)) fun same => second (of_decide_eq_true same)
  rw [query_find, query_find, same]

theorem query_added (apart : x.name ≠ other) :
    configQuery (other :: path) (a ++ [x]) = configQuery (other :: path) a := by
  have skip : [x].find? (fun node => node.name = other) = none := by
    simp [apart]
  rw [query_find, query_find, List.find?_append, skip, Option.or_none]

theorem query_missing (missing : nodes.findIdx? (fun node => node.name = name) = none)
    (path : List Name) : configQuery (name :: path) nodes = none := by
  rw [query_find, find_of_findIdx missing]
  rfl

theorem query_empty (path : List Name) : configQuery path ([] : List (Node V)) = none := by
  cases path with
  | nil => rfl
  | cons name path => rfl

/-- Where no node is there, one is created for each element. -/
theorem assign_empty (path : List Name) (v : V) : nodeAssign path v [] = nodeCreate path v [] := by
  cases path with
  | nil => rfl
  | cons name path => rfl

end Parts

/-! ## Assignment -/

section Assign

variable {live : Live V} {before path : List Name}

/-- Paths that do not go on behind another one are kept. -/
theorem create_frame (next : Nat) (q : List Name) (far : ∀ p ≠ [], q ≠ before ++ p) :
    (create live next before path).1 q = live q := by
  induction path generalizing live next before with
  | nil => rfl
  | cons name path ih =>
      have farther : ∀ p ≠ [], q ≠ before ++ [name] ++ p := by
        intro p some_ same
        rw [List.append_assoc] at same
        exact far ([name] ++ p) (List.cons_ne_nil _ _) same
      unfold create
      cases live (before ++ [name]) with
      | some found =>
          cases path with
          | nil => rfl
          | cons part path => exact ih next farther
      | none =>
          have kept : Function.update live (before ++ [name]) (some (next, none)) q = live q :=
            Function.update_of_ne (far [name] (List.cons_ne_nil _ _)) _ _
          by_cases long : nameLimit ≤ name.length
          · simp only [if_pos long]
          · simp only [if_neg long]
            cases path with
            | nil => exact kept
            | cons part path => exact (ih (next + 1) farther).trans kept

theorem frame_of_create {next next' : Nat} {live' : Live V} {found : Option Nat}
    (spec : create live next before path = (live', next', found)) {q : List Name}
    (far : ∀ p ≠ [], q ≠ before ++ p) : live' q = live q := by
  have kept : (create live next before path).1 q = live q := create_frame next q far
  rw [spec] at kept
  exact kept

/-- A path that was made is there. -/
theorem create_found (next : Nat) {serial : Nat}
    (done : (create live next before path).2.2 = some serial) :
    ((create live next before path).1 (before ++ path)).isSome = true := by
  induction path generalizing live next before with
  | nil => cases done
  | cons name path ih =>
      unfold create at done ⊢
      cases here : live (before ++ [name]) with
      | some found =>
          simp only [here] at done ⊢
          cases path with
          | nil =>
              show (live (before ++ [name])).isSome = true
              rw [here]
              rfl
          | cons part path =>
              have deeper := ih next done
              rwa [List.append_assoc] at deeper
      | none =>
          simp only [here] at done ⊢
          by_cases long : nameLimit ≤ name.length
          · rw [if_pos long] at done
            cases done
          · simp only [if_neg long] at done ⊢
            cases path with
            | nil =>
                show (Function.update live (before ++ [name]) _ (before ++ [name])).isSome = true
                rw [Function.update_self]
                rfl
            | cons part path =>
                have deeper := ih (next + 1) done
                rwa [List.append_assoc] at deeper

end Assign

section Agree

variable {a b : List (Node V)} {y : Node V} {name : Name} {live : Live V} {before path : List Name}
  {nodes : List (Node V)}

/-- A node list is what is wanted if it is so for one node and for all others. -/
theorem wanted_parts {want : List Name → Option (Option V)} (named : y.name = name)
    (first : ∀ z ∈ a, z.name ≠ name) (self : some y.value = want [name])
    (below : ∀ p ≠ [], configQuery p y.children = want (name :: p))
    (others : ∀ other p, other ≠ name → configQuery (other :: p) (a ++ y :: b) = want (other :: p)) :
    ∀ p ≠ [], configQuery p (a ++ y :: b) = want p := by
  intro p some_
  cases p with
  | nil => exact absurd rfl some_
  | cons other p =>
      by_cases same : other = name
      · subst same
        rw [query_here named first]
        cases p with
        | nil => exact self
        | cons part p => exact below _ (List.cons_ne_nil _ _)
      · exact others other p same

/-- The map with the value at a path that was made. -/
def assigned (live : Live V) (before path : List Name) (found : Option Nat) (v : V) (p : List Name) :
    Option (Option V) :=
  if found.isSome = true ∧ p = path then some (some v) else (live (before ++ p)).map Prod.snd

theorem assigned_here (live : Live V) (before path : List Name) (serial : Nat) (v : V) :
    assigned live before path (some serial) v path = some (some v) := if_pos ⟨rfl, rfl⟩

theorem assigned_other (live : Live V) (before : List Name) (found : Option Nat) (v : V) {p : List Name}
    (other : p ≠ path) : assigned live before path found v p = (live (before ++ p)).map Prod.snd :=
  if_neg fun same => other same.2

theorem assigned_none (live : Live V) (before path : List Name) (v : V) (p : List Name) :
    assigned live before path none v p = (live (before ++ p)).map Prod.snd :=
  if_neg fun same => nomatch same.1

theorem assigned_below (live : Live V) (before : List Name) (found : Option Nat) (v : V) (name : Name)
    (path p : List Name) :
    assigned live before (name :: path) found v (name :: p) =
      assigned live (before ++ [name]) path found v p := by
  unfold assigned
  rw [List.append_assoc]
  simp only [List.cons.injEq, true_and, List.singleton_append]

/-- A node at the end of the path gets the value. -/
theorem assigned_end {v : V} (named : y.name = name) (first : ∀ z ∈ a, z.name ≠ name)
    (value : y.value = some v)
    (below : ∀ p ≠ [], configQuery p y.children = (live (before ++ [name] ++ p)).map Prod.snd)
    (others : ∀ other p, other ≠ name →
      configQuery (other :: p) (a ++ y :: b) = (live (before ++ other :: p)).map Prod.snd) (serial : Nat) :
    ∀ p ≠ [], configQuery p (a ++ y :: b) = assigned live before [name] (some serial) v p := by
  refine wanted_parts named first ?_ ?_ ?_
  · rw [assigned_here, value]
  · intro p some_
    have longer : name :: p ≠ [name] := fun eq => some_ (List.cons.inj eq).2
    rw [assigned_other _ _ _ _ longer]
    have deeper := below p some_
    rwa [List.append_assoc] at deeper
  · intro other p ne
    have other_ : other :: p ≠ [name] := fun eq => ne (List.cons.inj eq).1
    rw [assigned_other _ _ _ _ other_]
    exact others other p ne

/-- A node on the path has the value at the end below it. -/
theorem assigned_inside {part : Name} {live' : Live V} {next next' : Nat} {found : Option Nat} {v : V}
    (named : y.name = name) (first : ∀ z ∈ a, z.name ≠ name)
    (spec : create live next (before ++ [name]) (part :: path) = (live', next', found))
    (self : (live (before ++ [name])).map Prod.snd = some y.value)
    (below : ∀ p ≠ [], configQuery p y.children =
      assigned live' (before ++ [name]) (part :: path) found v p)
    (others : ∀ other p, other ≠ name →
      configQuery (other :: p) (a ++ y :: b) = (live (before ++ other :: p)).map Prod.snd) :
    ∀ p ≠ [], configQuery p (a ++ y :: b) =
      assigned live' before (name :: part :: path) found v p := by
  refine wanted_parts named first ?_ ?_ ?_
  · have shorter : [name] ≠ name :: part :: path := fun eq => nomatch (List.cons.inj eq).2
    rw [assigned_other _ _ _ _ shorter, frame_of_create spec fun p some_ => append_longer _ some_, self]
  · intro p some_
    rw [assigned_below]
    exact below p some_
  · intro other p ne
    have other_ : other :: p ≠ name :: part :: path := fun eq => ne (List.cons.inj eq).1
    rw [assigned_other _ _ _ _ other_, frame_of_create spec fun q _ => append_other ne q]
    exact others other p ne

/-- The nodes get what the map of paths gets, with the value at the end. -/
def AssignsPath (path : List Name) (v : V) (next : Nat) (nodes : List (Node V)) (live : Live V)
    (before : List Name) : Prop :=
  ∃ live' next' found, create live next before path = (live', next', found) ∧
    (nodeAssign path v nodes).2 = found.isSome ∧
    ∀ p ≠ [], configQuery p (nodeAssign path v nodes).1 = assigned live' before path found v p

section Step

variable (v : V) (next : Nat) {name : Name} {path : List Name}
  (agree : ∀ p ≠ [], configQuery p nodes = (live (before ++ p)).map Prod.snd)
  (ih : ∀ {nodes : List (Node V)} {live : Live V} {before : List Name} (next : Nat),
    (∀ p ≠ [], configQuery p nodes = (live (before ++ p)).map Prod.snd) →
    AssignsPath path v next nodes live before)

include agree ih

/-- A name that is there is followed. -/
theorem assigns_found {i : Nat}
    (position : (nodes.findIdx? fun (node : Node V) => node.name = name) = some i) :
    AssignsPath (name :: path) v next nodes live before := by
  unfold AssignsPath nodeAssign
  simp only [position]
  obtain ⟨a, x, b, rfl, rfl, here, first⟩ := divided position
  have named : x.name = name := of_decide_eq_true here
  have first : ∀ z ∈ a, z.name ≠ name := fun z mem same => first z mem (decide_eq_true same)
  have inner : ∀ p ≠ [], configQuery p x.children = (live (before ++ [name] ++ p)).map Prod.snd := by
    intro p some_
    rw [List.append_assoc, List.singleton_append, ← agree _ (List.cons_ne_nil _ _),
      query_here named first]
    cases p with
    | nil => exact absurd rfl some_
    | cons part p => rfl
  have self : (live (before ++ [name])).map Prod.snd = some x.value := by
    rw [← agree _ (List.cons_ne_nil _ _), query_here named first]
    rfl
  have others : ∀ y : Node V, y.name = name → ∀ other p, other ≠ name →
      configQuery (other :: p) (a ++ y :: b) = (live (before ++ other :: p)).map Prod.snd := by
    intro y same other p ne
    rw [← agree _ (List.cons_ne_nil _ _)]
    exact query_other (fun eq => ne (eq.symm.trans same)) fun eq => ne (eq.symm.trans named)
  cases path with
  | nil =>
      obtain ⟨⟨serial, value⟩, known, same⟩ := Option.map_eq_some_iff.mp self
      simp only [get_divided, set_divided]
      refine ⟨live, next, some serial, ?_, rfl, ?_⟩
      · unfold create
        simp only [known]
      · exact assigned_end (y := { x with value := some v }) named first rfl inner
          (others _ named) serial
  | cons part path =>
      obtain ⟨live', next', found, spec, done, below⟩ := ih next inner
      obtain ⟨⟨serial, value⟩, known, same⟩ := Option.map_eq_some_iff.mp self
      simp only [get_divided, set_divided]
      refine ⟨live', next', found, ?_, done, ?_⟩
      · unfold create
        simp only [known]
        exact spec
      · exact assigned_inside
          (y := { x with children := (nodeAssign (part :: path) v x.children).1 })
          named first spec self below (others _ named)

/-- A new name is put behind the others, with nothing below it. -/
theorem assigns_added
    (position : (nodes.findIdx? fun (node : Node V) => node.name = name) = none) :
    AssignsPath (name :: path) v next nodes live before := by
  unfold AssignsPath nodeAssign
  simp only [position]
  have missing := query_missing position
  have absent : ∀ z ∈ nodes, z.name ≠ name := fun z mem same =>
    absent_of_findIdx position z mem (decide_eq_true same)
  have unused : live (before ++ [name]) = none := by
    have known := agree [name] (List.cons_ne_nil _ _)
    rw [missing] at known
    exact Option.map_eq_none_iff.mp known.symm
  unfold nodeCreate create
  simp only [unused]
  by_cases long : nameLimit ≤ name.length
  · simp only [if_pos long]
    refine ⟨live, next, none, rfl, rfl, fun p some_ => ?_⟩
    rw [assigned_none]
    exact agree p some_
  · simp only [if_neg long]
    obtain ⟨self, _, deeper, elsewhere⟩ :=
      update_parts live before name (some (next, none))
    generalize Function.update live (before ++ [name]) (some (next, none)) = live₁
      at self deeper elsewhere
    have below : ∀ p ≠ [], live₁ (before ++ [name] ++ p) = none := by
      intro p some_
      have known := agree (name :: p) (List.cons_ne_nil _ _)
      rw [missing] at known
      rw [deeper p some_]
      exact Option.map_eq_none_iff.mp known.symm
    have others : ∀ y : Node V, y.name = name → ∀ other p, other ≠ name →
        configQuery (other :: p) (nodes ++ [y]) = (live₁ (before ++ other :: p)).map Prod.snd := by
      intro y same other p ne
      rw [elsewhere other p ne, ← agree _ (List.cons_ne_nil _ _)]
      exact query_added fun eq => ne (eq.symm.trans same)
    cases path with
    | nil =>
        refine ⟨live₁, next + 1, some next, rfl, rfl, ?_⟩
        refine assigned_end (y := ⟨name, some v, []⟩) rfl absent rfl ?_ (others _ rfl) next
        intro p some_
        rw [below p some_, query_empty]
        rfl
    | cons part path =>
        have inner : ∀ p ≠ [], configQuery p ([] : List (Node V)) =
            (live₁ (before ++ [name] ++ p)).map Prod.snd := by
          intro p some_
          rw [below p some_, query_empty]
          rfl
        obtain ⟨live', next', found, spec, done, below'⟩ := ih (next + 1) inner
        rw [assign_empty] at done below'
        refine ⟨live', next', found, spec, done, ?_⟩
        refine assigned_inside (y := ⟨name, none, (nodeCreate (part :: path) v []).1⟩) rfl absent
          spec ?_ below' (others _ rfl)
        rw [self]
        rfl

end Step

theorem assign_create (path : List Name) (v : V) (next : Nat)
    (agree : ∀ p ≠ [], configQuery p nodes = (live (before ++ p)).map Prod.snd) :
    AssignsPath path v next nodes live before := by
  induction path generalizing nodes live next before with
  | nil =>
      refine ⟨live, next, none, rfl, rfl, fun p some_ => ?_⟩
      rw [assigned_none]
      exact agree p some_
  | cons name path ih =>
      cases position : nodes.findIdx? fun (node : Node V) => node.name = name with
      | some i => exact assigns_found v next agree ih position
      | none => exact assigns_added v next agree ih position

end Agree

/-! ## Unused items -/

/-- Items without a name have no elements, in the arrays of all items as well. -/
inductive Bare : List (Item V) → Prop where
  | mk {items : List (Item V)} (unused : ∀ item ∈ items, item.name = none → item.elements = [])
      (inner : ∀ item ∈ items, Bare item.elements) : Bare items

section Unused

variable {a b items : List (Item V)} {x y : Item V} {path : List Name} {arr : Items V}

theorem Bare.unused (bare : Bare items) (mem : x ∈ items) (unnamed : x.name = none) : x.elements = [] := by
  cases bare with
  | mk unused inner => exact unused x mem unnamed

theorem Bare.inner (bare : Bare items) (mem : x ∈ items) : Bare x.elements := by
  cases bare with
  | mk unused inner => exact inner x mem

theorem bare_empty : Bare ([] : List (Item V)) :=
  .mk (fun _ mem => by cases mem) fun _ mem => by cases mem

theorem named_used {name : Name} {q : Prop} (named : x.name = some name) (unnamed : x.name = none) : q := by
  rw [named] at unnamed
  cases unnamed

/-- One item is replaced. -/
theorem Bare.replace (bare : Bare (a ++ x :: b)) (unused : y.name = none → y.elements = [])
    (inner : Bare y.elements) : Bare (a ++ y :: b) := by
  have old : ∀ z, z ∈ a ++ y :: b → z = y ∨ z ∈ a ++ x :: b := by
    intro z mem
    rcases List.mem_append.mp mem with mem | mem
    · exact .inr (List.mem_append_left _ mem)
    · rcases List.mem_cons.mp mem with rfl | mem
      · exact .inl rfl
      · exact .inr (List.mem_append_right _ (List.mem_cons_of_mem _ mem))
  refine .mk (fun z mem unnamed => ?_) fun z mem => ?_
  · rcases old z mem with rfl | mem
    · exact unused unnamed
    · exact bare.unused mem unnamed
  · rcases old z mem with rfl | mem
    · exact inner
    · exact bare.inner mem

theorem Bare.clean (bare : Bare arr.elements) (path : List Name) : Clean path arr := by
  induction path generalizing arr with
  | nil => trivial
  | cons name path ih =>
      unfold Clean
      cases found : arr.elements.find? fun (item : Item V) => item.name = some name with
      | none =>
          intro item first
          have unnamed := List.find?_some first
          exact .inl (bare.unused (List.mem_of_find?_eq_some first) (of_decide_eq_true unnamed))
      | some item =>
          cases path with
          | nil => trivial
          | cons part path =>
              have below : Bare item.items.elements := bare.inner (List.mem_of_find?_eq_some found)
              exact ih below

/-- The slot for a new item has no elements. -/
theorem Bare.slot (bare : Bare arr.elements) :
    ∃ a x b r, arr.slot = (⟨a ++ x :: b, r⟩, a.length) ∧ x.elements = [] ∧ Bare (a ++ x :: b) := by
  obtain ⟨elements, room⟩ := arr
  unfold Items.slot
  cases position : elements.findIdx? fun (item : Item V) => item.name = none with
  | some i =>
      obtain ⟨a, x, b, rfl, rfl, here, first⟩ := divided position
      have mem : x ∈ a ++ x :: b := List.mem_append_right _ (List.mem_cons_self ..)
      have empty : x.elements = [] := bare.unused mem (of_decide_eq_true here)
      have nothing : (x.items.cut (a ++ x :: b).length).elements = [] := by
        unfold Items.cut
        split
        · exact empty
        · show x.elements.drop _ = []
          rw [empty, List.drop_nil]
      simp only [modify_divided]
      refine ⟨a, _, b, room, rfl, nothing, bare.replace (fun _ => nothing) ?_⟩
      show Bare (x.items.cut (a ++ x :: b).length).elements
      rw [nothing]
      exact bare_empty
  | none =>
      refine ⟨elements, ⟨none, none, 0, [], 0⟩, [], _, rfl, rfl, .mk ?_ ?_⟩
      · intro z mem unnamed
        rcases List.mem_append.mp mem with mem | mem
        · exact bare.unused mem unnamed
        · rw [List.mem_singleton.mp mem]
      · intro z mem
        rcases List.mem_append.mp mem with mem | mem
        · exact bare.inner mem
        · rw [List.mem_singleton.mp mem]
          exact bare_empty

theorem reserve_bare (path : List Name) (next : Nat) (bare : Bare arr.elements) :
    Bare (itemReserve path arr next).1.elements := by
  induction path generalizing arr next with
  | nil => exact bare
  | cons name path ih =>
      unfold itemReserve
      cases position : arr.elements.findIdx? fun (item : Item V) => item.name = some name with
      | some i =>
          obtain ⟨a, x, b, r, rfl, rfl, named, first⟩ := named_position position
          simp only [get_divided]
          cases path with
          | nil => exact bare
          | cons part path =>
              have below : Bare x.items.elements := bare.inner (List.mem_append_right _ (List.mem_cons_self ..))
              simp only [set_divided]
              exact bare.replace (named_used named) (ih next below)
      | none =>
          obtain ⟨a, x, b, r, slot, empty, bare'⟩ := bare.slot
          simp only [slot, get_divided]
          by_cases long : nameLimit ≤ name.length
          · simp only [if_pos long]
            exact bare'
          · simp only [if_neg long]
            have nothing : Bare x.elements := by
              rw [empty]
              exact bare_empty
            cases path with
            | nil =>
                simp only [set_divided]
                exact bare'.replace (fun unnamed => by cases unnamed) nothing
            | cons part path =>
                simp only [set_divided]
                exact bare'.replace (fun unnamed => by cases unnamed) (ih (next + 1) nothing)

theorem setValue_bare (v : V) (bare : Bare arr.elements) :
    Bare (change (Item.setValue v) path arr).elements := by
  induction path generalizing arr with
  | nil => exact bare
  | cons name path ih =>
      unfold change
      cases position : arr.elements.findIdx? fun (item : Item V) => item.name = some name with
      | none => exact bare
      | some i =>
          obtain ⟨a, x, b, r, rfl, rfl, named, first⟩ := named_position position
          have mem : x ∈ a ++ x :: b := List.mem_append_right _ (List.mem_cons_self ..)
          simp only [modify_divided]
          cases path with
          | nil =>
              have unused : x.name = none → x.elements = [] := bare.unused mem
              have inner : Bare x.elements := bare.inner mem
              exact bare.replace unused inner
          | cons part path =>
              have below : Bare x.items.elements := bare.inner mem
              exact bare.replace (named_used named) (ih below)

end Unused

/-! ## Runs -/

/-- The condition for a call: what is removed is not there, and no memory is examined that is
    not used. -/
def FineStores (s : Items Meta × Nat) : StoreCall → Prop
  | .assign _ _ => True
  | .remove dest => look dest.parts s.1 = none ∧ Inside dest.parts s.1
  | .query dest => Inside dest.parts s.1

/-- A node is there where an item is, with the same value. -/
structure Same (s : Items Meta × Nat) (nodes : List (Node Meta)) : Prop where
  bare : Bare s.1.elements
  agree : ∀ p ≠ [], configQuery p nodes = (look p s.1).map Prod.snd

theorem same_assign {s : Items Meta × Nat} {nodes : List (Node Meta)} (same : Same s nodes)
    (path : List Name) (text : Text) :
    (rootAssign path text s).2 = (configAssign path text nodes).2 ∧
      Same (rootAssign path text s).1 (configAssign path text nodes).1 := by
  obtain ⟨arr, next⟩ := s
  obtain ⟨bare, agree⟩ := same
  have bare : Bare arr.elements := bare
  have agree : ∀ p ≠ [], configQuery p nodes = (look p arr).map Prod.snd := agree
  obtain ⟨live, known⟩ : ∃ live : Live Meta, ∀ p, live p = look p arr := ⟨_, fun _ => rfl⟩
  have start : ∀ p ≠ [], live ([] ++ p) = look p arr := fun p _ => known p
  have start' : ∀ p ≠ [], configQuery p nodes = (live ([] ++ p)).map Prod.snd := by
    intro p some_
    rw [start p some_]
    exact agree p some_
  obtain ⟨arr', next', found, live', run, spec, below, outside⟩ :=
    reserve_create next (bare.clean path) start
  obtain ⟨live'', next'', found', spec', done, wanted⟩ :=
    assign_create path (metatypeCreate text) next start'
  rw [spec] at spec'
  cases spec'
  have bare' : Bare arr'.elements := by
    have kept := reserve_bare path next bare
    rwa [run] at kept
  unfold rootAssign configAssign
  simp only [run]
  cases found with
  | none =>
      refine ⟨done.symm, bare', fun p some_ => ?_⟩
      rw [wanted p some_, assigned_none]
      exact congrArg (Option.map Prod.snd) (below p some_)
  | some serial =>
      refine ⟨done.symm, setValue_bare _ bare', fun p some_ => ?_⟩
      show _ = (look p (change (Item.setValue (metatypeCreate text)) path arr')).map Prod.snd
      rw [wanted p some_, look_setValue]
      by_cases target : p = path
      · subst target
        rw [assigned_here, if_pos rfl]
        have done' : (create live next [] p).2.2 = some serial := by
          rw [spec]
        have there := create_found next done'
        have known' : live' ([] ++ p) = look p arr' := below p some_
        simp only [spec, known'] at there
        obtain ⟨⟨serial', value⟩, here⟩ := Option.isSome_iff_exists.mp there
        rw [here]
        rfl
      · rw [assigned_other _ _ _ _ target, if_neg target]
        exact congrArg (Option.map Prod.snd) (below p some_)

theorem same_step {s : Items Meta × Nat} {nodes : List (Node Meta)} (same : Same s nodes)
    (call : StoreCall) (fine : FineStores s call) :
    (rootStore.step s call).2 = (globalStore.step nodes call).2 ∧
      Same (rootStore.step s call).1 (globalStore.step nodes call).1 := by
  cases call with
  | assign dest text =>
      obtain ⟨done, kept⟩ := same_assign same dest.parts text
      exact ⟨congrArg StoreAnswer.assigned done, kept⟩
  | remove dest =>
      obtain ⟨missing, inside⟩ := fine
      have nothing : itemQuery dest.parts s.1 = .nothing := by
        rw [query_look inside, missing]
      have absent : configQuery dest.parts nodes = none := by
        rw [same.agree _ dest.nonempty, missing]
        rfl
      simp only [rootStore, globalStore, rootRemove, configRemove, nothing, absent]
      exact ⟨trivial, same⟩
  | query dest =>
      refine ⟨?_, same⟩
      simp only [rootStore, globalStore]
      rw [query_look fine, same.agree _ dest.nonempty]
      cases look dest.parts s.1 with
      | none => rfl
      | some found => rfl

/-! ## What a removal leaves -/

/-- Names in one list differ, and so they do below each node. -/
inductive Apart : List (Node V) → Prop where
  | mk {nodes : List (Node V)} (names : (nodes.map Node.name).Nodup)
      (inner : ∀ node ∈ nodes, Apart node.children) : Apart nodes

section Removal

variable {a b nodes : List (Node V)} {x y : Node V} {name : Name} {path : List Name}

theorem Apart.names (apart : Apart nodes) : (nodes.map Node.name).Nodup := by
  cases apart with
  | mk names inner => exact names

theorem Apart.inner (apart : Apart nodes) (mem : x ∈ nodes) : Apart x.children := by
  cases apart with
  | mk names inner => exact inner x mem

theorem apart_empty : Apart ([] : List (Node V)) := .mk List.nodup_nil fun _ mem => by cases mem

/-- A node keeps its name. -/
theorem Apart.replace (apart : Apart (a ++ x :: b)) (same : y.name = x.name) (inner : Apart y.children) :
    Apart (a ++ y :: b) := by
  refine .mk ?_ fun z mem => ?_
  · have names := apart.names
    rw [List.map_append, List.map_cons] at names ⊢
    rwa [same]
  · rcases List.mem_append.mp mem with mem | mem
    · exact apart.inner (List.mem_append_left _ mem)
    · rcases List.mem_cons.mp mem with rfl | mem
      · exact inner
      · exact apart.inner (List.mem_append_right _ (List.mem_cons_of_mem _ mem))

/-- A node of a new name is added. -/
theorem Apart.add (apart : Apart nodes) (absent : ∀ z ∈ nodes, z.name ≠ y.name) (inner : Apart y.children) :
    Apart (nodes ++ [y]) := by
  refine .mk ?_ fun z mem => ?_
  · rw [List.map_append]
    refine List.nodup_append.mpr ⟨apart.names, List.nodup_singleton _, fun n mem n' mem' => ?_⟩
    obtain ⟨z, old, rfl⟩ := List.mem_map.mp mem
    have eq : n' = y.name := List.mem_singleton.mp mem'
    rw [eq]
    exact absent z old
  · rcases List.mem_append.mp mem with mem | mem
    · exact apart.inner mem
    · rw [List.mem_singleton.mp mem]
      exact inner

theorem create_apart (v : V) (path : List Name) : Apart (nodeCreate path v []).1 := by
  induction path with
  | nil => exact apart_empty
  | cons name path ih =>
      unfold nodeCreate
      by_cases long : nameLimit ≤ name.length
      · rw [if_pos long]
        exact apart_empty
      · rw [if_neg long]
        cases path with
        | nil => exact apart_empty.add (fun z mem => by cases mem) apart_empty
        | cons part path => exact apart_empty.add (fun z mem => by cases mem) ih

theorem assign_apart (path : List Name) (v : V) (apart : Apart nodes) : Apart (nodeAssign path v nodes).1 := by
  induction path generalizing nodes with
  | nil => exact apart
  | cons name path ih =>
      unfold nodeAssign
      cases position : nodes.findIdx? fun (node : Node V) => node.name = name with
      | some i =>
          obtain ⟨a, x, b, rfl, rfl, here, first⟩ := divided position
          have below := apart.inner (List.mem_append_right a (List.mem_cons_self (a := x) (l := b)))
          cases path with
          | nil =>
              simp only [get_divided, set_divided]
              exact apart.replace rfl below
          | cons part path =>
              simp only [get_divided, set_divided]
              exact apart.replace rfl (ih below)
      | none =>
          have absent : ∀ z ∈ nodes, z.name ≠ name := fun z mem same =>
            absent_of_findIdx position z mem (decide_eq_true same)
          unfold nodeCreate
          by_cases long : nameLimit ≤ name.length
          · simp only [if_pos long]
            exact apart
          · simp only [if_neg long]
            cases path with
            | nil => exact apart.add absent apart_empty
            | cons part path => exact apart.add absent (create_apart v (part :: path))

/-- What is unlinked is not there any more. -/
theorem query_unlink (apart : Apart nodes) : configQuery path (nodeUnlink path nodes) = none := by
  induction path generalizing nodes with
  | nil => rfl
  | cons name path ih =>
      unfold nodeUnlink
      cases position : nodes.findIdx? fun (node : Node V) => node.name = name with
      | none => exact query_missing position path
      | some i =>
          obtain ⟨a, x, b, rfl, rfl, here, first⟩ := divided position
          have named : x.name = name := of_decide_eq_true here
          have first : ∀ z ∈ a, z.name ≠ name := fun z mem same => first z mem (decide_eq_true same)
          cases path with
          | nil =>
              have removed : (a ++ x :: b).eraseIdx a.length = a ++ b := by
                rw [List.eraseIdx_append_of_length_le (Nat.le_refl _), Nat.sub_self, List.eraseIdx_cons_zero]
              have names := apart.names
              rw [List.map_append, List.map_cons] at names
              have other := (List.nodup_cons.mp (List.nodup_middle.mp names)).1
              rw [← List.map_append] at other
              have none_ : (a ++ b).find? (fun node => node.name = name) = none := by
                refine List.find?_eq_none.mpr fun z mem here => other ?_
                rw [named, ← of_decide_eq_true here]
                exact List.mem_map_of_mem mem
              simp only [removed]
              rw [query_find, none_]
              rfl
          | cons part path =>
              simp only [modify_divided]
              rw [query_here (x := { x with children := nodeUnlink (part :: path) x.children }) named first]
              exact ih (apart.inner (List.mem_append_right _ (List.mem_cons_self ..)))

/-- An item that was removed is still there, without value. -/
theorem look_remove (path : List Name) (arr : Items V) :
    look path (change Item.remove path arr) = (look path arr).map fun found => (found.1, none) := by
  induction path generalizing arr with
  | nil => rfl
  | cons name path ih =>
      unfold change
      cases position : arr.elements.findIdx? fun (item : Item V) => item.name = some name with
      | none =>
          simp only
          rw [look_missing position]
          rfl
      | some i =>
          obtain ⟨a, x, b, r, rfl, rfl, named, first⟩ := named_position position
          simp only [modify_divided]
          cases path with
          | nil =>
              rw [look_here (x := x.remove) named first, look_here named first]
              rfl
          | cons part path =>
              rw [look_here (x := x.withItems _) named first, look_here named first]
              exact ih x.items

end Removal

/-- Where the stores agree, they do so after a removal exactly when there was nothing. -/
theorem remove_agrees {s : Items Meta × Nat} {nodes : List (Node Meta)} (same : Same s nodes) (apart : Apart nodes)
    (dest : Dest) (inside : Inside dest.parts s.1) :
    configQuery dest.parts (globalStore.step nodes (.remove dest)).1 =
        (look dest.parts (rootStore.step s (.remove dest)).1.1).map Prod.snd ↔
      look dest.parts s.1 = none := by
  have known := same.agree _ dest.nonempty
  cases found : look dest.parts s.1 with
  | none =>
      have kept := (same_step same (.remove dest) ⟨found, inside⟩).2
      exact ⟨fun _ => rfl, fun _ => kept.agree _ dest.nonempty⟩
  | some item =>
      have seen : itemQuery dest.parts s.1 = .item item.1 item.2 := by
        rw [query_look inside, found]
      rw [found] at known
      have gone : configQuery dest.parts (configRemove dest.parts nodes) = none := by
        unfold configRemove
        simp only [known, Option.map_some]
        exact query_unlink apart
      have left : look dest.parts (change Item.remove dest.parts s.1) = some (item.1, none) := by
        rw [look_remove, found]
        rfl
      refine ⟨fun wrong => ?_, fun wrong => by cases wrong⟩
      simp only [globalStore, rootStore, rootRemove, seen, gone, left] at wrong
      cases wrong

/-- The stores agree, and names in one list differ, after a call that meets the condition. -/
theorem apart_step {s : Items Meta × Nat} {nodes : List (Node Meta)} (same : Same s nodes) (apart : Apart nodes)
    (call : StoreCall) (fine : FineStores s call) : Apart (globalStore.step nodes call).1 := by
  cases call with
  | assign dest text => exact assign_apart dest.parts (metatypeCreate text) apart
  | remove dest =>
      have absent : configQuery dest.parts nodes = none := by
        rw [same.agree _ dest.nonempty, fine.1]
        rfl
      show Apart (configRemove dest.parts nodes)
      unfold configRemove
      simp only [absent]
      exact apart
  | query dest => exact apart

/-- In every run whose calls meet the condition, both stores give the same answers.  Then they
    agree after a removal exactly when there was nothing. -/
theorem stores_of_run (calls : List StoreCall) (fine : rootStore.Meets FineStores (⟨[], 0⟩, 0) calls) :
    rootStore.outputs (⟨[], 0⟩, 0) calls = globalStore.outputs [] calls ∧
      ∀ dest : Dest, Inside dest.parts (rootStore.after (⟨[], 0⟩, 0) calls).1 →
        (configQuery dest.parts (globalStore.step (globalStore.after [] calls) (.remove dest)).1 =
            (look dest.parts (rootStore.step (rootStore.after (⟨[], 0⟩, 0) calls) (.remove dest)).1.1).map Prod.snd ↔
          look dest.parts (rootStore.after (⟨[], 0⟩, 0) calls).1 = none) := by
  have start : Same ((⟨[], 0⟩, 0) : Items Meta × Nat) [] := by
    refine ⟨bare_empty, fun p _ => ?_⟩
    rw [query_empty, look_empty]
    rfl
  have keep : ∀ (s : Items Meta × Nat) (nodes : List (Node Meta)) (call : StoreCall),
      Same s nodes ∧ Apart nodes → FineStores s call →
        (rootStore.step s call).2 = (globalStore.step nodes call).2 ∧
          Same (rootStore.step s call).1 (globalStore.step nodes call).1 ∧
            Apart (globalStore.step nodes call).1 := by
    intro s nodes call both fine
    obtain ⟨answer, kept⟩ := same_step both.1 call fine
    exact ⟨answer, kept, apart_step both.1 both.2 call fine⟩
  obtain ⟨answers, same, apart⟩ := Machine.simulation keep ⟨start, apart_empty⟩ fine
  exact ⟨answers, fun dest inside => remove_agrees same apart dest inside⟩

/-- A path of one element. -/
def Dest.single (c : Char) : Dest :=
  ⟨[[c]], List.cons_ne_nil _ _, fun wrong => nomatch List.mem_singleton.mp wrong⟩

/-- A text of one character, repeated. -/
def Text.repeated (count : Nat) : Text :=
  ⟨List.replicate count 'x', fun wrong => nomatch List.eq_of_mem_replicate wrong⟩

/-- Two items fill an array, a third one is neither found nor removed. -/
theorem stores_sample :
    rootStore.outputs (⟨[], 0⟩, 0)
        [.assign (.single 'a') (.repeated 1), .assign (.single 'b') (.repeated 2),
          .assign (.single 'a') (.repeated 3), .remove (.single 'c'), .query (.single 'a'),
          .query (.single 'c')] =
      globalStore.outputs []
        [.assign (.single 'a') (.repeated 1), .assign (.single 'b') (.repeated 2),
          .assign (.single 'a') (.repeated 3), .remove (.single 'c'), .query (.single 'a'),
          .query (.single 'c')] := by
  have fine : rootStore.Meets FineStores (⟨[], 0⟩, 0)
      [.assign (.single 'a') (.repeated 1), .assign (.single 'b') (.repeated 2),
        .assign (.single 'a') (.repeated 3), .remove (.single 'c'), .query (.single 'a'),
        .query (.single 'c')] := by
    exact ⟨trivial, trivial, trivial, ⟨rfl, rfl⟩, trivial, rfl, trivial⟩
  exact (stores_of_run _ fine).1

/-- An element that was removed is still found among the items, and a query of something else
    goes beyond the used part of an array with room. -/
theorem stores_wrong :
    rootStore.outputs (⟨[], 0⟩, 0)
          [.assign (.single 'a') (.repeated 1), .assign (.single 'b') (.repeated 1), .remove (.single 'a'),
            .query (.single 'a')] ≠
        globalStore.outputs []
          [.assign (.single 'a') (.repeated 1), .assign (.single 'b') (.repeated 1), .remove (.single 'a'),
            .query (.single 'a')] ∧
      rootStore.outputs (⟨[], 0⟩, 0) [.assign (.single 'a') (.repeated 1), .query (.single 'b')] ≠
        globalStore.outputs [] [.assign (.single 'a') (.repeated 1), .query (.single 'b')] := by
  refine ⟨by decide, by decide⟩

end Mpt.Config
