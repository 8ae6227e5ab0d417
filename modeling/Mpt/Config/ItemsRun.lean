import Mpt.Config.Items
import Mpt.Run
import Mathlib.Data.List.Nodup
import Mathlib.Logic.Function.Basic

/-! # Items are a map from paths

What a path leads to is looked up in the used elements only.  The map of all paths is
compared with one that is changed by each call as a whole.
-/

namespace Mpt.Config

variable {V : Type u}

/-- What a path leads to: the number of the item and its value. -/
def look : (path : List Name) → Items V → Option (Nat × Option V)
  | [], _ => none
  | name :: path, arr =>
      match arr.elements.find? fun item => item.name = some name with
      | none => none
      | some item =>
          match path with
          | [] => some (item.serial, item.value)
          | _ :: _ => look path item.items

/-- The map of paths. -/
abbrev Live (V : Type u) := List Name → Option (Nat × Option V)

/-- All parts of a path that are missing are made, up to one that can not be. -/
def create (live : Live V) (next : Nat) : (before path : List Name) → Live V × Nat × Option Nat
  | _, [] => (live, next, none)
  | before, name :: path =>
      match live (before ++ [name]) with
      | some (serial, _) =>
          match path with
          | [] => (live, next, some serial)
          | _ :: _ => create live next (before ++ [name]) path
      | none =>
          if nameLimit ≤ name.length then
            (live, next, none)
          else
            let live := Function.update live (before ++ [name]) (some (next, none))
            match path with
            | [] => (live, next + 1, some next)
            | _ :: _ => create live (next + 1) (before ++ [name]) path

/-- The condition for a reserved path: where an unused slot is taken, the item there has no
    elements, or as many as the array with the slot. -/
def Clean : (path : List Name) → Items V → Prop
  | [], _ => True
  | name :: path, arr =>
      match arr.elements.find? fun item => item.name = some name with
      | some item =>
          match path with
          | [] => True
          | _ :: _ => Clean path item.items
      | none => ∀ item, arr.elements.find? (fun item => item.name = none) = some item →
          item.elements = [] ∨ item.elements.length = arr.elements.length

/-- The condition for a query: all arrays on the way have the name, or no further room. -/
def Inside : (path : List Name) → Items V → Prop
  | [], _ => True
  | name :: path, arr =>
      match arr.elements.find? fun item => item.name = some name with
      | some item =>
          match path with
          | [] => True
          | _ :: _ => Inside path item.items
      | none => arr.room = 0

/-! ## Positions -/

section Positions

variable {α : Type u} {p : α → Bool} {l a b : List α} {x y : α} {i : Nat}

/-- A position that was found divides the list. -/
theorem divided (found : l.findIdx? p = some i) :
    ∃ a x b, l = a ++ x :: b ∧ a.length = i ∧ p x = true ∧ ∀ y ∈ a, ¬ p y = true := by
  induction l generalizing i with
  | nil => cases found
  | cons x rest ih =>
      rw [List.findIdx?_cons] at found
      split at found
      · next here =>
        cases found
        exact ⟨[], x, rest, rfl, rfl, here, fun y mem => by cases mem⟩
      · next other =>
        obtain ⟨j, found', rfl⟩ := Option.map_eq_some_iff.mp found
        obtain ⟨a, x', b, rfl, rfl, here, before⟩ := ih found'
        refine ⟨x :: a, x', b, rfl, rfl, here, fun y mem => ?_⟩
        rcases List.mem_cons.mp mem with rfl | mem
        · exact other
        · exact before y mem

theorem find_divided (here : p x = true) (before : ∀ y ∈ a, ¬ p y = true) :
    (a ++ x :: b).find? p = some x := by
  rw [List.find?_append, List.find?_eq_none.mpr before, List.find?_cons_of_pos here]
  rfl

theorem find_replaced (other : ¬ p x = true) (other' : ¬ p y = true) :
    (a ++ x :: b).find? p = (a ++ y :: b).find? p := by
  rw [List.find?_append, List.find?_append, List.find?_cons_of_neg other, List.find?_cons_of_neg other']

theorem set_divided (y : α) : (a ++ x :: b).set a.length y = a ++ y :: b := by
  rw [List.set_append_right _ _ (Nat.le_refl _), Nat.sub_self, List.set_cons_zero]

theorem modify_divided (f : α → α) : (a ++ x :: b).modify a.length f = a ++ f x :: b := by
  induction a with
  | nil => rfl
  | cons z a ih => exact congrArg (z :: ·) ih

theorem get_divided : (a ++ x :: b)[a.length]? = some x := by
  rw [List.getElem?_append_right (Nat.le_refl _), Nat.sub_self]
  rfl

theorem absent_of_findIdx (none_ : l.findIdx? p = none) : ∀ y ∈ l, ¬ p y = true := by
  intro y mem here
  rw [List.findIdx?_eq_none_iff] at none_
  rw [none_ y mem] at here
  cases here

theorem find_of_findIdx (none_ : l.findIdx? p = none) : l.find? p = none :=
  List.find?_eq_none.mpr (absent_of_findIdx none_)

end Positions

/-! ## One part of a path -/

section Parts

variable {a b : List (Item V)} {x y : Item V} {name other : Name} {path : List Name} {r r' : Nat}
  {arr : Items V}

/-- An item of the name that was found divides the array. -/
theorem named_position {i : Nat}
    (position : arr.elements.findIdx? (fun item => item.name = some name) = some i) :
    ∃ a x b r, arr = ⟨a ++ x :: b, r⟩ ∧ a.length = i ∧ x.name = some name ∧ ∀ z ∈ a, z.name ≠ some name := by
  obtain ⟨elements, room⟩ := arr
  obtain ⟨a, x, b, rfl, len, here, first⟩ := divided position
  exact ⟨a, x, b, room, rfl, len, of_decide_eq_true here, fun z mem same => first z mem (decide_eq_true same)⟩

theorem find_named (named : x.name = some name) (before : ∀ y ∈ a, y.name ≠ some name) :
    (a ++ x :: b).find? (fun item => item.name = some name) = some x :=
  find_divided (p := fun item : Item V => item.name = some name) (decide_eq_true named)
    fun y mem same => before y mem (of_decide_eq_true same)

/-- What follows the first part of a path. -/
def Item.look (item : Item V) (path : List Name) : Option (Nat × Option V) :=
  match path with
  | [] => some (item.serial, item.value)
  | _ :: _ => Config.look path item.items

theorem look_find (name : Name) (path : List Name) (arr : Items V) :
    look (name :: path) arr =
      (arr.elements.find? fun item => item.name = some name).bind fun item => item.look path := by
  conv_lhs => unfold look
  cases arr.elements.find? fun (item : Item V) => item.name = some name with
  | none => rfl
  | some item =>
      cases path with
      | nil => rfl
      | cons part path => rfl

theorem look_here (named : x.name = some name) (before : ∀ y ∈ a, y.name ≠ some name) :
    look (name :: path) ⟨a ++ x :: b, r⟩ = x.look path := by
  rw [look_find, find_named named before]
  rfl

theorem look_other (first : x.name ≠ some other) (second : y.name ≠ some other) :
    look (other :: path) ⟨a ++ x :: b, r⟩ = look (other :: path) ⟨a ++ y :: b, r'⟩ := by
  have same : (a ++ x :: b).find? (fun item => item.name = some other) =
      (a ++ y :: b).find? fun item => item.name = some other :=
    find_replaced (p := fun item : Item V => item.name = some other)
      (fun same => first (of_decide_eq_true same)) fun same => second (of_decide_eq_true same)
  rw [look_find, look_find, same]

/-- An unused element more makes no difference. -/
theorem look_unused (unused : x.name = none) :
    look (other :: path) ⟨a ++ [x], r⟩ = look (other :: path) ⟨a, r'⟩ := by
  have skip : [x].find? (fun item => item.name = some other) = none := by
    simp [unused]
  rw [look_find, look_find]
  show (List.find? _ (a ++ [x])).bind _ = (List.find? _ a).bind _
  rw [List.find?_append, skip, Option.or_none]

/-- The slot for a new item, when the elements of an unused one can be removed. -/
theorem slot_spec (missing : arr.elements.findIdx? (fun item => item.name = some name) = none)
    (clean : ∀ item, arr.elements.find? (fun item => item.name = none) = some item →
      item.elements = [] ∨ item.elements.length = arr.elements.length) :
    ∃ a x b r, arr.slot = (⟨a ++ x :: b, r⟩, a.length) ∧ x.name = none ∧ x.value = none ∧
      x.elements = [] ∧ (∀ y ∈ a, y.name ≠ some name) ∧
      (∀ y ∈ arr.elements, y.name ≠ none → y ∈ a ++ b) ∧ (∀ y ∈ a ++ b, y ∈ arr.elements) ∧
      (a ++ b).filterMap Item.name = arr.elements.filterMap Item.name ∧
      ∀ other path, look (other :: path) ⟨a ++ x :: b, r⟩ = look (other :: path) arr := by
  have absent : ∀ y ∈ arr.elements, y.name ≠ some name := fun y mem same =>
    absent_of_findIdx missing y mem (decide_eq_true same)
  obtain ⟨elements, room⟩ := arr
  unfold Items.slot
  cases unused : elements.findIdx? fun (item : Item V) => item.name = none with
  | some i =>
      obtain ⟨a, x, b, rfl, rfl, here, before⟩ := divided unused
      have empty := of_decide_eq_true here
      have clean := clean x (find_divided here before)
      simp only [modify_divided]
      generalize new : ({ x.withItems (x.items.cut (a ++ x :: b).length) with value := none } : Item V) = z
      have name_ : z.name = none := by
        rw [← new]
        exact empty
      have none_ : z.elements = [] := by
        rw [← new]
        show (x.items.cut (a ++ x :: b).length).elements = []
        unfold Items.cut
        rcases clean with nil | same
        · split
          · exact nil
          · show x.elements.drop _ = []
            rw [nil, List.drop_nil]
        · rw [if_neg (by show ¬ x.elements.length < _; exact Nat.not_lt.mpr (Nat.le_of_eq same.symm))]
          exact List.drop_eq_nil_of_le (Nat.le_of_eq same)
      refine ⟨a, z, b, room, rfl, name_, by rw [← new], none_, ?_, ?_, ?_, ?_, ?_⟩
      · exact fun y mem => absent y (List.mem_append_left _ mem)
      · intro y mem named
        rcases List.mem_append.mp mem with mem | mem
        · exact List.mem_append_left _ mem
        · rcases List.mem_cons.mp mem with rfl | mem
          · exact absurd empty named
          · exact List.mem_append_right _ mem
      · intro y mem
        rcases List.mem_append.mp mem with mem | mem
        · exact List.mem_append_left _ mem
        · exact List.mem_append_right _ (List.mem_cons_of_mem _ mem)
      · rw [List.filterMap_append, List.filterMap_append, List.filterMap_cons_none empty]
      · intro other path
        exact look_other (by rw [name_]; exact fun same => nomatch same)
          (by rw [empty]; exact fun same => nomatch same)
  | none =>
      refine ⟨elements, ⟨none, none, 0, [], 0⟩, [], _, rfl, rfl, rfl, rfl, absent, ?_, ?_, ?_, ?_⟩
      · exact fun y mem _ => List.mem_append_left _ mem
      · intro y mem
        rwa [List.append_nil] at mem
      · rw [List.append_nil]
      · exact fun other path => look_unused rfl

end Parts

/-! ## Reserving a path -/

section Reserve

variable {a b : List (Item V)} {x y : Item V} {name : Name} {path before : List Name} {r : Nat}
  {arr : Items V} {live : Live V}

/-- A path that goes on behind another one. -/
theorem append_other {other : Name} (ne : other ≠ name) (p : List Name) :
    before ++ other :: path ≠ before ++ [name] ++ p := by
  rw [List.append_assoc]
  intro same
  exact ne (List.cons.inj (List.append_cancel_left same)).1

theorem append_longer (q : List Name) {p : List Name} (some_ : p ≠ []) : q ≠ q ++ p :=
  fun same => some_ (List.append_cancel_left ((List.append_nil q).trans same)).symm

/-- What a new entry changes: nothing below it, and nothing elsewhere. -/
theorem update_parts (live : Live V) (before : List Name) (name : Name)
    (entry : Option (Nat × Option V)) :
    Function.update live (before ++ [name]) entry (before ++ [name]) = entry ∧
      (∀ q, q ≠ before ++ [name] → Function.update live (before ++ [name]) entry q = live q) ∧
      (∀ p ≠ [], Function.update live (before ++ [name]) entry (before ++ [name] ++ p) =
        live (before ++ name :: p)) ∧
      ∀ other p, other ≠ name → Function.update live (before ++ [name]) entry (before ++ other :: p) =
        live (before ++ other :: p) := by
  have kept : ∀ q, q ≠ before ++ [name] →
      Function.update live (before ++ [name]) entry q = live q := fun q ne =>
    Function.update_of_ne ne _ _
  refine ⟨Function.update_self _ _ _, kept, fun p some_ => ?_, fun other p ne => ?_⟩
  · rw [kept _ (append_longer _ some_).symm, List.append_assoc]
    rfl
  · exact kept _ fun eq => append_other ne [] (eq.trans (List.append_nil _).symm)

/-- The map and the array agree if they do so for the part and for all others. -/
theorem agree_parts (named : y.name = some name) (first : ∀ z ∈ a, z.name ≠ some name)
    (self : live (before ++ [name]) = some (y.serial, y.value))
    (below : ∀ p ≠ [], live (before ++ [name] ++ p) = look p y.items)
    (others : ∀ other path, other ≠ name →
      live (before ++ other :: path) = look (other :: path) ⟨a ++ y :: b, r⟩) :
    ∀ p ≠ [], live (before ++ p) = look p ⟨a ++ y :: b, r⟩ := by
  intro p some_
  cases p with
  | nil => exact absurd rfl some_
  | cons other path =>
      by_cases same : other = name
      · subst same
        rw [look_here named first]
        cases path with
        | nil => exact self
        | cons part path =>
            have deeper := below (part :: path) (List.cons_ne_nil _ _)
            rwa [List.append_assoc] at deeper
      · exact others other path same

theorem look_empty (path : List Name) (r : Nat) : look path (⟨[], r⟩ : Items V) = none := by
  cases path with
  | nil => rfl
  | cons name path => rfl

theorem clean_empty (path : List Name) (r : Nat) : Clean path (⟨[], r⟩ : Items V) := by
  cases path with
  | nil => trivial
  | cons name path => exact fun item found => nomatch found

theorem look_missing (missing : arr.elements.findIdx? (fun item => item.name = some name) = none)
    (path : List Name) : look (name :: path) arr = none := by
  rw [look_find, find_of_findIdx missing]
  rfl

/-- What is changed below a name only is changed in the items of one element. -/
theorem agree_inside {live' : Live V} {sub : Items V} (named : y.name = some name)
    (first : ∀ z ∈ a, z.name ≠ some name) (self : live (before ++ [name]) = some (y.serial, y.value))
    (outside : ∀ q, (∀ p ≠ [], q ≠ before ++ [name] ++ p) → live' q = live q)
    (below : ∀ p ≠ [], live' (before ++ [name] ++ p) = look p sub)
    (others : ∀ other path, other ≠ name →
      live (before ++ other :: path) = look (other :: path) ⟨a ++ y :: b, r⟩) :
    ∀ p ≠ [], live' (before ++ p) = look p ⟨a ++ y.withItems sub :: b, r⟩ := by
  refine agree_parts (y := y.withItems sub) named first ?_ below fun other path ne => ?_
  · rw [outside _ fun p some_ => append_longer _ some_]
    exact self
  · rw [outside _ fun p _ => append_other ne p, others other path ne]
    have apart : y.name ≠ some other := by
      rw [named]
      exact fun same => ne (Option.some.inj same).symm
    exact look_other apart apart

/-- Reserving a path makes the same in the arrays and in the map of all paths. -/
def Reserves (next : Nat) (path before : List Name) (arr : Items V) (live : Live V) : Prop :=
  ∃ arr' next' found live', itemReserve path arr next = (arr', next', found) ∧
    create live next before path = (live', next', found) ∧
    (∀ p ≠ [], live' (before ++ p) = look p arr') ∧
    ∀ q, (∀ p ≠ [], q ≠ before ++ p) → live' q = live q

section Step

variable (next : Nat) (clean : Clean (name :: path) arr)
  (agree : ∀ p ≠ [], live (before ++ p) = look p arr)
  (ih : ∀ {before : List Name} {arr : Items V} {live : Live V} (next : Nat), Clean path arr →
    (∀ p ≠ [], live (before ++ p) = look p arr) → Reserves next path before arr live)

include clean agree ih

/-- A name that is there is followed. -/
theorem reserves_found {i : Nat}
    (position : (arr.elements.findIdx? fun (item : Item V) => item.name = some name) = some i) :
    Reserves next (name :: path) before arr live := by
  obtain ⟨a, x, b, r, rfl, rfl, named, first⟩ := named_position position
  have self : live (before ++ [name]) = some (x.serial, x.value) := by
    rw [agree _ (List.cons_ne_nil _ _), look_here named first]
    rfl
  cases path with
  | nil =>
      refine ⟨_, next, some x.serial, live, ?_, ?_, agree, fun q _ => rfl⟩
      · unfold itemReserve
        simp only [position, get_divided, Option.map_some]
      · unfold create
        simp only [self]
  | cons part path =>
      have inner : Clean (part :: path) x.items := by
        unfold Clean at clean
        simp only [find_named named first] at clean
        exact clean
      have deeper : ∀ p ≠ [], live (before ++ [name] ++ p) = look p x.items := by
        intro p some_
        rw [List.append_assoc, List.singleton_append, agree _ (List.cons_ne_nil _ _),
          look_here named first]
        cases p with
        | nil => exact absurd rfl some_
        | cons part path => rfl
      obtain ⟨sub, next', found, live', run, spec, below, outside⟩ := ih next inner deeper
      refine ⟨⟨a ++ x.withItems sub :: b, r⟩, next', found, live', ?_, ?_, ?_, ?_⟩
      · unfold itemReserve
        simp only [position, get_divided, run, set_divided]
      · unfold create
        simp only [self]
        exact spec
      · exact agree_inside named first self outside below fun other path ne =>
          agree _ (List.cons_ne_nil _ _)
      · intro q far
        refine outside q fun p some_ same => far ([name] ++ p) (List.cons_ne_nil _ _) ?_
        rw [same, List.append_assoc]

/-- A new name takes an unused element or a new one, without anything below it. -/
theorem reserves_added
    (position : (arr.elements.findIdx? fun (item : Item V) => item.name = some name) = none) :
    Reserves next (name :: path) before arr live := by
  have missing := look_missing position
  have unused : live (before ++ [name]) = none := by
    rw [agree _ (List.cons_ne_nil _ _), missing]
  have clean : ∀ item, arr.elements.find? (fun item => item.name = none) = some item →
      item.elements = [] ∨ item.elements.length = arr.elements.length := by
    unfold Clean at clean
    simp only [find_of_findIdx position] at clean
    exact clean
  obtain ⟨a, x, b, r, slot, empty, unset, single, first, _, _, _, same⟩ := slot_spec position clean
  by_cases long : nameLimit ≤ name.length
  · refine ⟨⟨a ++ x :: b, r⟩, next, none, live, ?_, ?_, ?_, fun q _ => rfl⟩
    · unfold itemReserve
      simp only [position, slot, if_pos long]
    · unfold create
      simp only [unused, if_pos long]
    · intro p some_
      cases p with
      | nil => exact absurd rfl some_
      | cons other path => rw [agree _ some_, same]
  · generalize new : ({ x with name := some name, serial := next } : Item V) = y
    have named : y.name = some name := by rw [← new]
    have serial : y.serial = next := by rw [← new]
    have value : y.value = none := by
      rw [← new]
      exact unset
    have items : y.items = ⟨[], x.room⟩ := by
      rw [← new, ← single]
      rfl
    have others : ∀ other path, other ≠ name →
        live (before ++ other :: path) = look (other :: path) ⟨a ++ y :: b, r⟩ := by
      intro other path ne
      rw [agree _ (List.cons_ne_nil _ _), ← same]
      refine look_other ?_ ?_
      · rw [empty]
        exact fun same => nomatch same
      · rw [named]
        exact fun same => ne (Option.some.inj same).symm
    obtain ⟨self, kept, deeper, elsewhere⟩ :=
      update_parts live before name (some (next, none))
    generalize updated : Function.update live (before ++ [name]) (some (next, none)) = live₁
      at self kept deeper elsewhere
    rw [← serial, ← value] at self
    have below : ∀ p ≠ [], live₁ (before ++ [name] ++ p) = look p y.items := by
      intro p some_
      rw [deeper p some_, items, look_empty, agree _ (List.cons_ne_nil _ _), missing]
    cases path with
    | nil =>
        refine ⟨⟨a ++ y :: b, r⟩, next + 1, some next, live₁, ?_, ?_, ?_, ?_⟩
        · unfold itemReserve
          simp only [position, slot, if_neg long, get_divided, set_divided, new]
        · unfold create
          simp only [unused, if_neg long, updated]
        · refine agree_parts named first self below fun other path ne => ?_
          rw [elsewhere other path ne]
          exact others other path ne
        · exact fun q far => kept q (far [name] (List.cons_ne_nil _ _))
    | cons part path =>
        have inner : Clean (part :: path) y.items := by
          rw [items]
          exact clean_empty _ _
        obtain ⟨sub, next', found, live', run, spec, below', outside⟩ :=
          ih (next + 1) inner below
        refine ⟨⟨a ++ y.withItems sub :: b, r⟩, next', found, live', ?_, ?_, ?_, ?_⟩
        · unfold itemReserve
          simp only [position, slot, if_neg long, get_divided, new, run, set_divided]
        · unfold create
          simp only [unused, if_neg long, updated]
          exact spec
        · refine agree_inside named first self outside below' fun other path ne => ?_
          rw [elsewhere other path ne]
          exact others other path ne
        · intro q far
          rw [outside q fun p some_ same => far ([name] ++ p) (List.cons_ne_nil _ _) (by
            rw [same, List.append_assoc])]
          exact kept q (far [name] (List.cons_ne_nil _ _))

end Step

theorem reserve_create (next : Nat) (clean : Clean path arr)
    (agree : ∀ p ≠ [], live (before ++ p) = look p arr) : Reserves next path before arr live := by
  induction path generalizing arr next live before with
  | nil => exact ⟨arr, next, none, live, rfl, rfl, agree, fun q _ => rfl⟩
  | cons name path ih =>
      cases position : arr.elements.findIdx? fun (item : Item V) => item.name = some name with
      | some i => exact reserves_found next clean agree ih position
      | none => exact reserves_added next clean agree ih position

end Reserve

/-! ## Distinct names -/

/-- Names in one array differ, and so they do in the arrays of its items. -/
inductive Wf : List (Item V) → Prop where
  | mk {items : List (Item V)} (names : (items.filterMap Item.name).Nodup)
      (inner : ∀ item ∈ items, item.name ≠ none → Wf item.elements) : Wf items

section Names

variable {a b items : List (Item V)} {x y : Item V} {name : Name} {path : List Name} {arr : Items V}

theorem Wf.names (wf : Wf items) : (items.filterMap Item.name).Nodup := by
  cases wf with
  | mk names inner => exact names

theorem Wf.inner (wf : Wf items) (mem : x ∈ items) (named : x.name ≠ none) : Wf x.elements := by
  cases wf with
  | mk names inner => exact inner x mem named

theorem wf_empty : Wf ([] : List (Item V)) :=
  .mk List.nodup_nil fun item mem => by cases mem

/-- An item is replaced by one with the same name, or by an unused one. -/
theorem Wf.replace (wf : Wf (a ++ x :: b)) (name_ : y.name = x.name ∨ y.name = none)
    (below : y.name ≠ none → Wf y.elements) : Wf (a ++ y :: b) := by
  refine .mk ?_ fun item mem named => ?_
  · have names := wf.names
    rw [List.filterMap_append] at names ⊢
    rcases name_ with same | unused
    · have single : (y :: b).filterMap Item.name = (x :: b).filterMap Item.name := by
        rw [List.filterMap_cons, List.filterMap_cons, same]
      rwa [single]
    · rw [List.filterMap_cons_none unused]
      exact names.sublist ((List.Sublist.refl _).append ((List.sublist_cons_self x b).filterMap _))
  · rcases List.mem_append.mp mem with mem | mem
    · exact wf.inner (List.mem_append_left _ mem) named
    · rcases List.mem_cons.mp mem with rfl | mem
      · exact below named
      · exact wf.inner (List.mem_append_right _ (List.mem_cons_of_mem _ mem)) named

/-- A name that is new. -/
theorem wf_new (names : ((a ++ b).filterMap Item.name).Nodup)
    (inner : ∀ item ∈ a ++ b, item.name ≠ none → Wf item.elements) (named : x.name = some name)
    (absent : ∀ item ∈ a ++ b, item.name ≠ some name) (below : Wf x.elements) : Wf (a ++ x :: b) := by
  refine .mk ?_ fun item mem named' => ?_
  · rw [List.filterMap_append] at names
    rw [List.filterMap_append, List.filterMap_cons_some named]
    refine List.nodup_middle.mpr (List.nodup_cons.mpr ⟨?_, names⟩)
    rw [← List.filterMap_append]
    intro mem
    obtain ⟨item, mem, same⟩ := List.mem_filterMap.mp mem
    exact absent item mem same
  · rcases List.mem_append.mp mem with mem | mem
    · exact inner item (List.mem_append_left _ mem) named'
    · rcases List.mem_cons.mp mem with rfl | mem
      · exact below
      · exact inner item (List.mem_append_right _ mem) named'

theorem reserve_wf (next : Nat) (clean : Clean path arr) (wf : Wf arr.elements) :
    Wf (itemReserve path arr next).1.elements := by
  induction path generalizing arr next with
  | nil => exact wf
  | cons name path ih =>
      unfold itemReserve
      unfold Clean at clean
      cases position : arr.elements.findIdx? fun (item : Item V) => item.name = some name with
      | some i =>
          obtain ⟨a, x, b, r, rfl, rfl, named, first⟩ := named_position position
          have used : x.name ≠ none := by
            rw [named]
            exact fun same => nomatch same
          simp only [find_named named first] at clean
          simp only [get_divided]
          cases path with
          | nil => exact wf
          | cons part path =>
              have inner := ih next clean (wf.inner (List.mem_append_right _ (List.mem_cons_self ..)) used)
              simp only [set_divided]
              exact wf.replace (.inl rfl) fun _ => inner
      | none =>
          simp only [find_of_findIdx position] at clean
          obtain ⟨a, x, b, r, slot, empty, _, single, first, all, from_, names, _⟩ := slot_spec position clean
          have absent : ∀ item ∈ a ++ b, item.name ≠ some name := by
            intro item mem same
            exact absent_of_findIdx position item (from_ item mem) (decide_eq_true same)
          have nodup : ((a ++ b).filterMap Item.name).Nodup := names ▸ wf.names
          have inner : ∀ item ∈ a ++ b, item.name ≠ none → Wf item.elements :=
            fun item mem named => wf.inner (from_ item mem) named
          simp only [slot]
          by_cases long : nameLimit ≤ name.length
          · rw [if_pos long]
            refine .mk ?_ fun item mem named => ?_
            · rw [List.filterMap_append, List.filterMap_cons_none empty, ← List.filterMap_append]
              exact nodup
            · rcases List.mem_append.mp mem with mem | mem
              · exact inner item (List.mem_append_left _ mem) named
              · rcases List.mem_cons.mp mem with rfl | mem
                · exact absurd empty named
                · exact inner item (List.mem_append_right _ mem) named
          · rw [if_neg long]
            simp only [get_divided]
            cases path with
            | nil =>
                simp only [set_divided]
                refine wf_new nodup inner rfl absent ?_
                show Wf x.elements
                rw [single]
                exact wf_empty
            | cons part path =>
                simp only [set_divided]
                refine wf_new nodup inner rfl absent (ih (next + 1) ?_ ?_)
                · show Clean (part :: path) ⟨x.elements, x.room⟩
                  rw [single]
                  exact clean_empty _ _
                · show Wf x.elements
                  rw [single]
                  exact wf_empty

/-- Names that differ are found where they are. -/
theorem Wf.first (wf : Wf (a ++ x :: b)) (named : x.name = some name) :
    ∀ z ∈ a ++ b, z.name ≠ some name := by
  intro z mem same
  have names := wf.names
  rw [List.filterMap_append, List.filterMap_cons_some named] at names
  have apart := (List.nodup_cons.mp (List.nodup_middle.mp names)).1
  rw [← List.filterMap_append] at apart
  exact apart (List.mem_filterMap.mpr ⟨z, mem, same⟩)

end Names

/-! ## Changes of an item -/

section Change

variable {arr : Items V} {q p : List Name}

theorem look_nil (arr : Items V) : look [] arr = none := rfl

/-- A value is set at one path. -/
theorem look_setValue (v : V) (q p : List Name) (arr : Items V) :
    look p (change (Item.setValue v) q arr) =
      if p = q then (look q arr).map fun x => (x.1, some v) else look p arr := by
  induction q generalizing p arr with
  | nil =>
      show look p arr = _
      cases p with
      | nil => rfl
      | cons other path => rfl
  | cons name q ih =>
      unfold change
      cases position : arr.elements.findIdx? fun (item : Item V) => item.name = some name with
      | none =>
          simp only
          split
          · next same => rw [same, look_missing position]; rfl
          · rfl
      | some i =>
          obtain ⟨a, x, b, r, rfl, rfl, named, first⟩ := named_position position
          simp only [modify_divided]
          cases p with
          | nil => rfl
          | cons other path =>
              by_cases same : other = name
              · subst same
                cases q with
                | nil =>
                    rw [look_here (x := x.setValue v) named first, look_here named first,
                      look_here named first]
                    cases path with
                    | nil =>
                        rw [if_pos rfl]
                        rfl
                    | cons part path =>
                        rw [if_neg fun eq => nomatch eq]
                        rfl
                | cons part q =>
                    rw [look_here (x := x.withItems _) named first, look_here named first,
                      look_here named first]
                    cases path with
                    | nil =>
                        rw [if_neg fun eq => nomatch eq]
                        rfl
                    | cons part' path =>
                        have inner := ih (part' :: path) x.items
                        simp only [List.cons.injEq, true_and] at inner ⊢
                        exact inner
              · have apart : ∀ y : Item V, y.name = x.name → y.name ≠ some other := by
                  intro y same' wrong
                  rw [same', named] at wrong
                  exact same (Option.some.inj wrong).symm
                rw [if_neg fun eq => same (List.cons.inj eq).1]
                refine look_other (apart _ ?_) (apart x rfl)
                cases q <;> rfl

/-- Below a path of an unused item there is nothing. -/
theorem look_clear (q p : List Name) (arr : Items V) (wf : Wf arr.elements) (some_ : q ≠ []) :
    look p (change Item.unused q arr) = if q <+: p then none else look p arr := by
  induction q generalizing p arr with
  | nil => exact absurd rfl some_
  | cons name q ih =>
      unfold change
      cases position : arr.elements.findIdx? fun (item : Item V) => item.name = some name with
      | none =>
          simp only
          split
          · next part =>
            obtain ⟨rest, rfl⟩ := part
            exact look_missing position _
          · rfl
      | some i =>
          obtain ⟨a, x, b, r, rfl, rfl, named, first⟩ := named_position position
          have used : x.name ≠ none := by
            rw [named]
            exact fun same => nomatch same
          simp only [modify_divided]
          cases p with
          | nil => rw [look_nil, look_nil, ite_self]
          | cons other path =>
              by_cases same : other = name
              · subst same
                cases q with
                | nil =>
                    rw [if_pos (List.cons_prefix_cons.mpr ⟨rfl, List.nil_prefix⟩), look_find]
                    have absent : (a ++ x.unused :: b).find? (fun item => item.name = some other) = none := by
                      refine List.find?_eq_none.mpr fun z mem here => ?_
                      have here := of_decide_eq_true here
                      rcases List.mem_append.mp mem with mem | mem
                      · exact wf.first named z (List.mem_append_left _ mem) here
                      · rcases List.mem_cons.mp mem with rfl | mem
                        · cases here
                        · exact wf.first named z (List.mem_append_right _ mem) here
                    rw [absent]
                    rfl
                | cons part q =>
                    have inner := ih path x.items (wf.inner (List.mem_append_right _ (List.mem_cons_self ..)) used)
                      (List.cons_ne_nil _ _)
                    rw [look_here (x := x.withItems _) named first, look_here named first]
                    cases path with
                    | nil =>
                        have longer : ¬ (other :: part :: q) <+: [other] := fun part => by
                          have len := part.length_le
                          simp at len
                        rw [if_neg longer]
                        rfl
                    | cons part' path =>
                        have same : (other :: part :: q <+: other :: part' :: path) ↔
                            (part :: q <+: part' :: path) := by
                          rw [List.cons_prefix_cons]
                          exact and_iff_right rfl
                        simp only [same]
                        exact inner
              · have apart : ∀ y : Item V, y.name = x.name ∨ y.name = none → y.name ≠ some other := by
                  intro y same' wrong
                  rcases same' with same' | unused
                  · rw [same', named] at wrong
                    exact same (Option.some.inj wrong).symm
                  · rw [unused] at wrong
                    cases wrong
                rw [if_neg fun part => same (List.cons_prefix_cons.mp part).1.symm]
                refine look_other (apart _ ?_) (apart x (.inl rfl))
                cases q with
                | nil => exact .inr rfl
                | cons part q => exact .inl rfl

/-- A change that keeps the name, or makes the item unused, and keeps its elements. -/
theorem change_wf (f : Item V → Item V) (name_ : ∀ x, (f x).name = x.name ∨ (f x).name = none)
    (same : ∀ x, (f x).elements = x.elements) (q : List Name) (arr : Items V) (wf : Wf arr.elements) :
    Wf (change f q arr).elements := by
  induction q generalizing arr with
  | nil => exact wf
  | cons name q ih =>
      unfold change
      cases position : arr.elements.findIdx? fun (item : Item V) => item.name = some name with
      | none => exact wf
      | some i =>
          obtain ⟨a, x, b, r, rfl, rfl, named, first⟩ := named_position position
          have used : x.name ≠ none := by
            rw [named]
            exact fun same => nomatch same
          have below := wf.inner (List.mem_append_right _ (List.mem_cons_self ..)) used
          simp only [modify_divided]
          cases q with
          | nil =>
              refine wf.replace (name_ x) fun _ => ?_
              rw [same]
              exact below
          | cons part q => exact wf.replace (.inl rfl) fun _ => ih x.items below

/-- A query that stays inside finds what the path leads to. -/
theorem query_look (inside : Inside q arr) :
    itemQuery q arr = match look q arr with
      | some (serial, value) => .item serial value
      | none => .nothing := by
  induction q generalizing arr with
  | nil => rfl
  | cons name q ih =>
      unfold itemQuery look
      unfold Inside at inside
      cases found : arr.elements.find? fun (item : Item V) => item.name = some name with
      | none =>
          simp only [found] at inside
          simp only [if_pos inside]
      | some item =>
          simp only [found] at inside
          cases q with
          | nil => rfl
          | cons part q => exact ih inside

end Change

/-! ## Runs -/

/-- A path is reserved, and a value is set at the item that is returned; the item of a path
    is made unused; a path is queried. -/
inductive ItemCall (V : Type u) where
  | reserve (path : List Name) (value : Option V)
  | unused (path : List Name)
  | query (path : List Name)

inductive ItemAnswer (V : Type u) where
  | reserved (serial : Option Nat)
  | done
  | seen (seen : Seen V)
  deriving Repr, DecidableEq

/-- The calls on arrays of items. -/
def itemCalls : Machine (Items V × Nat) (ItemCall V) (ItemAnswer V) where
  step s call :=
    match call with
    | .reserve path value =>
        let (arr, next, found) := itemReserve path s.1 s.2
        ((match found, value with
          | some _, some v => change (Item.setValue v) path arr
          | _, _ => arr, next), .reserved found)
    | .unused path => ((change Item.unused path s.1, s.2), .done)
    | .query path => (s, .seen (itemQuery path s.1))

/-- The calls on the map of paths: a path that is reserved is there with all of its parts,
    new ones have no value and nothing is below them; nothing is left below a path that is
    made unused. -/
def liveCalls : Machine (Live V × Nat) (ItemCall V) (ItemAnswer V) where
  step s call :=
    match call with
    | .reserve path value =>
        let (live, next, found) := create s.1 s.2 [] path
        ((match found, value with
          | some _, some v => fun p => if p = path then (live path).map fun x => (x.1, some v) else live p
          | _, _ => live, next), .reserved found)
    | .unused path => ((fun p => if path ≠ [] ∧ path <+: p then none else s.1 p, s.2), .done)
    | .query path =>
        (s, .seen (match s.1 path with
          | some (serial, value) => .item serial value
          | none => .nothing))

/-- The condition for a call. -/
def FineItems (s : Items V × Nat) : ItemCall V → Prop
  | .reserve path _ => Clean path s.1
  | .unused _ => True
  | .query path => Inside path s.1

/-- The map of paths is what is looked up. -/
structure Agrees (s : Items V × Nat) (t : Live V × Nat) : Prop where
  wf : Wf s.1.elements
  live : ∀ p, t.1 p = look p s.1
  next : t.2 = s.2

theorem agrees_step {s : Items V × Nat} {t : Live V × Nat} (agrees : Agrees s t) (call : ItemCall V)
    (fine : FineItems s call) :
    (itemCalls.step s call).2 = (liveCalls.step t call).2 ∧
      Agrees (itemCalls.step s call).1 (liveCalls.step t call).1 := by
  obtain ⟨arr, next⟩ := s
  obtain ⟨live, other⟩ := t
  obtain ⟨wf, same, counted⟩ := agrees
  obtain rfl : other = next := counted
  have wf : Wf arr.elements := wf
  have same : ∀ p, live p = look p arr := same
  cases call with
  | reserve path value =>
      have clean : Clean path arr := fine
      have start : ∀ p ≠ [], live ([] ++ p) = look p arr := fun p _ => same p
      obtain ⟨arr', next', found, live', run, spec, below, outside⟩ := reserve_create other clean start
      have wf' : Wf arr'.elements := by
        have kept := reserve_wf other clean wf
        rwa [run] at kept
      have same' : ∀ p, live' p = look p arr' := by
        intro p
        cases p with
        | nil => rw [outside [] fun p some_ => some_.symm, same]; rfl
        | cons name path => exact below _ (List.cons_ne_nil _ _)
      simp only [itemCalls, liveCalls, run, spec]
      refine ⟨trivial, ?_⟩
      cases found with
      | none => exact ⟨wf', same', rfl⟩
      | some serial =>
          cases value with
          | none => exact ⟨wf', same', rfl⟩
          | some v =>
              have kept : Wf (change (Item.setValue v) path arr').elements :=
                change_wf (Item.setValue v) (fun x => .inl rfl) (fun x => rfl) path arr' wf'
              refine ⟨kept, fun p => ?_, rfl⟩
              show (if p = path then (live' path).map _ else live' p) = look p (change _ path arr')
              rw [look_setValue, same', same']
  | unused path =>
      have kept : Wf (change Item.unused path arr).elements :=
        change_wf Item.unused (fun x => .inr rfl) (fun x => rfl) path arr wf
      refine ⟨rfl, kept, fun p => ?_, rfl⟩
      show (if path ≠ [] ∧ path <+: p then none else live p) = look p (change Item.unused path arr)
      by_cases empty : path = []
      · subst empty
        rw [if_neg fun wrong => wrong.1 rfl]
        exact same p
      · rw [look_clear path p arr wf empty, same]
        simp only [ne_eq, empty, not_false_iff, true_and]
  | query path =>
      refine ⟨?_, wf, same, rfl⟩
      show ItemAnswer.seen (itemQuery path arr) = .seen _
      rw [query_look fine, ← same]

/-- In every run whose calls meet the condition, arrays of items answer as the map of paths
    does. -/
theorem items_of_run (calls : List (ItemCall V))
    (fine : itemCalls.Meets FineItems (⟨[], 0⟩, 0) calls) :
    itemCalls.outputs (⟨[], 0⟩, 0) calls = liveCalls.outputs (fun _ => none, 0) calls :=
  (Machine.simulation (fun _ _ call agrees fine => agrees_step agrees call fine)
    ⟨wf_empty, fun p => (look_empty p 0).symm, rfl⟩ fine).1

/-- Two items fill an array; one is made unused, and its slot taken again. -/
theorem items_sample :
    itemCalls.outputs ((⟨[], 0⟩, 0) : Items Nat × Nat)
        [.reserve [['a']] (some 1), .reserve [['b']] none, .unused [['a']], .query [['a']],
          .reserve [['c']] none, .query [['c']]] =
      liveCalls.outputs (fun _ => none, 0)
        [.reserve [['a']] (some 1), .reserve [['b']] none, .unused [['a']], .query [['a']],
          .reserve [['c']] none, .query [['c']]] := by
  refine items_of_run _ ⟨?_, ?_, trivial, rfl, ?_, trivial, trivial⟩
  · exact fun item found => nomatch found
  · exact fun item found => nomatch found
  · exact fun item found => .inl (by cases found; rfl)

/-- A query of something else in an array with room; and a slot that is taken again with the
    element that was below. -/
theorem items_wrong :
    itemCalls.outputs ((⟨[], 0⟩, 0) : Items Nat × Nat) [.reserve [['a']] none, .query [['b']]] ≠
        liveCalls.outputs (fun _ => none, 0) [.reserve [['a']] none, .query [['b']]] ∧
      itemCalls.outputs ((⟨[], 0⟩, 0) : Items Nat × Nat)
          [.reserve [['a'], ['x']] none, .reserve [['b']] none, .unused [['a']], .reserve [['c']] none,
            .query [['c'], ['x']]] ≠
        liveCalls.outputs (fun _ => none, 0)
          [.reserve [['a'], ['x']] none, .reserve [['b']] none, .unused [['a']], .reserve [['c']] none,
            .query [['c'], ['x']]] := by
  decide

end Mpt.Config
