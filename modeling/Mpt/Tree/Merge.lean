import Mpt.Tree.Forest
import Mpt.Tree.Move
import Mathlib.Data.List.Nodup

/-! # Merging an old list of nodes into a new one

An old node has a counterpart if there is a new one with its name.  The nodes below
it are merged into those below its counterpart, and it is superseded.  Without a
counterpart it is kept behind the new nodes.
-/

namespace Mpt.Tree

namespace Forest

variable (nm : Nat → List Byte)

/-- The names of the nodes on top. -/
def names (f : Forest) : List (List Byte) := f.tops.map nm

/-- The nodes below the first one with a name. -/
def kidsOf (name : List Byte) : Forest → Option Forest
  | nil => none
  | cons i kids rest => if nm i = name then some kids else rest.kidsOf name

/-- Other nodes below the first one with a name. -/
def update (name : List Byte) (f : Forest → Forest) : Forest → Forest
  | nil => nil
  | cons i kids rest =>
      if nm i = name then cons i (f kids) rest else cons i kids (rest.update name f)

/-- The nodes whose name is not taken. -/
def unmatched (taken : List (List Byte)) : Forest → Forest
  | nil => nil
  | cons i kids rest =>
      if nm i ∈ taken then rest.unmatched taken else cons i kids (rest.unmatched taken)

/-- The new nodes, with what they take over from the old ones of the same name. -/
def absorb : (old new : Forest) → Forest
  | nil, new => new
  | cons o kids rest, new =>
      rest.absorb (new.update nm (nm o) fun below =>
        (kids.absorb below).append (kids.unmatched nm (below.names nm)))

/-- The new nodes, followed by the old ones whose name does not occur among them.  A new
    node without nodes below gets all of those below the old one of its name; otherwise
    they are merged the same way. -/
def merge (old new : Forest) : Forest :=
  (old.absorb nm new).append (old.unmatched nm (new.names nm))

/-- The old nodes that are not kept. -/
def left : (old new : Forest) → Forest
  | nil, _ => nil
  | cons o kids rest, new =>
      match new.kidsOf nm (nm o) with
      | none => rest.left new
      | some below => cons o (kids.left below) (rest.left (new.update nm (nm o) (kids.merge nm)))

/-- The condition for a merge: old nodes that are kept come first and have names of
    their own, and an old node with nodes below has a counterpart with nodes below. -/
def Fine : (old new : Forest) → Prop
  | nil, _ => True
  | cons o kids rest, new =>
      match new.kidsOf nm (nm o) with
      | none => nm o ∉ rest.names nm ∧ rest.Fine new
      | some below => (kids = nil ∨ below ≠ nil ∧ kids.Fine below) ∧
          (∀ x ∈ rest.tops, nm x ∈ new.names nm) ∧
          rest.Fine (new.update nm (nm o) (kids.merge nm))

variable {nm : Nat → List Byte}

@[simp] theorem merge_nil (new : Forest) : nil.merge nm new = new := by
  simp [merge, absorb, unmatched]

/-- A new node without nodes below takes over all there are. -/
theorem merge_into_nil (old : Forest) : old.merge nm nil = old := by
  have none : old.absorb nm nil = nil := by
    induction old with
    | nil => rfl
    | cons o kids rest _ ih => simpa [absorb, update] using ih
  have all : old.unmatched nm [] = old := by
    induction old with
    | nil => rfl
    | cons o kids rest _ ih => simpa [unmatched] using ih ‹_›
  rw [merge, none, names, tops_nil, List.map_nil, all, nil_append]

theorem left_nil (old : Forest) : old.left nm nil = nil := by
  induction old with
  | nil => rfl
  | cons o kids rest _ ih => simpa [left, kidsOf] using ih

theorem absorb_cons (o : Nat) (kids rest new : Forest) :
    (cons o kids rest).absorb nm new = rest.absorb nm (new.update nm (nm o) (kids.merge nm)) := rfl

@[simp] theorem tops_update (name : List Byte) (f : Forest → Forest) (new : Forest) :
    (new.update nm name f).tops = new.tops := by
  induction new with
  | nil => rfl
  | cons i kids rest _ ih =>
      unfold update
      split
      · rfl
      · simp [ih]

@[simp] theorem names_update (name : List Byte) (f : Forest → Forest) (new : Forest) :
    (new.update nm name f).names nm = new.names nm := by
  rw [names, tops_update, names]

@[simp] theorem tops_absorb (old new : Forest) : (old.absorb nm new).tops = new.tops := by
  induction old generalizing new with
  | nil => rfl
  | cons o kids rest _ ih => rw [absorb_cons, ih, tops_update]

theorem kidsOf_eq_none {name : List Byte} {new : Forest} :
    new.kidsOf nm name = none ↔ name ∉ new.names nm := by
  induction new with
  | nil => simp [kidsOf, names]
  | cons i kids rest _ ih =>
      simp only [names] at ih
      by_cases same : nm i = name
      · simp [kidsOf, names, same]
      · have other : ¬ name = nm i := fun eq => same eq.symm
        simp only [kidsOf, if_neg same, ih, names, tops_cons, List.map_cons, List.mem_cons, other,
          false_or]

theorem update_none {name : List Byte} {f : Forest} (absent : f.kidsOf nm name = none)
    (t : Forest → Forest) : f.update nm name t = f := by
  induction f with
  | nil => rfl
  | cons i kids rest _ ih =>
      unfold kidsOf at absent
      unfold update
      split at absent
      · cases absent
      · next other => rw [if_neg other, ih absent]

/-- What is put below a node is all that changes. -/
theorem update_perm {name : List Byte} {f : Forest → Forest} {new below : Forest}
    {more gone : List Nat} (found : new.kidsOf nm name = some below)
    (perm : ((f below).ids ++ gone).Perm (below.ids ++ more)) :
    ((new.update nm name f).ids ++ gone).Perm (new.ids ++ more) := by
  induction new with
  | nil => cases found
  | cons i kids rest _ ih =>
      unfold kidsOf at found
      unfold update
      split at found
      · next same =>
          obtain rfl := Option.some.inj found
          rw [if_pos same]
          refine List.Perm.cons i ?_
          have step : ((f kids).ids ++ rest.ids ++ gone).Perm ((f kids).ids ++ gone ++ rest.ids) := by
            rw [List.append_assoc, List.append_assoc]
            exact List.perm_append_comm.append_left _
          have back : (kids.ids ++ more ++ rest.ids).Perm (kids.ids ++ rest.ids ++ more) := by
            rw [List.append_assoc, List.append_assoc]
            exact List.perm_append_comm.append_left _
          exact step.trans ((perm.append_right rest.ids).trans back)
      · next other =>
          rw [if_neg other]
          refine List.Perm.cons i ?_
          have step := (ih found).append_left kids.ids
          rw [← List.append_assoc, ← List.append_assoc] at step
          exact step

/-- Every node is kept or superseded, and none is both. -/
theorem merge_perm (old new : Forest) :
    ((old.merge nm new).ids ++ (old.left nm new).ids).Perm (new.ids ++ old.ids) := by
  induction old generalizing new with
  | nil => simp [left]
  | cons o kids rest ihk ihr =>
      unfold merge
      rw [absorb_cons]
      unfold unmatched left
      cases found : new.kidsOf nm (nm o) with
      | none =>
          have absent := kidsOf_eq_none.mp found
          rw [if_neg absent, update_none found]
          have rest_perm := ihr new
          unfold merge at rest_perm
          simp only [ids_append, ids_cons] at rest_perm ⊢
          have moved : ((rest.absorb nm new).ids ++ o :: (kids.ids ++
              (rest.unmatched nm (new.names nm)).ids) ++ (rest.left nm new).ids).Perm
              ((o :: kids.ids) ++ ((rest.absorb nm new).ids ++
                (rest.unmatched nm (new.names nm)).ids ++ (rest.left nm new).ids)) := by
            rw [← List.cons_append, ← List.append_assoc, ← List.append_assoc, ← List.append_assoc]
            exact (List.perm_append_comm.append_right _).append_right _
          refine moved.trans ((rest_perm.append_left (o :: kids.ids)).trans ?_)
          rw [← List.append_assoc]
          refine (List.perm_append_comm.append_right _).trans ?_
          rw [List.append_assoc]
          exact List.Perm.append_left _ (List.Perm.refl _)
      | some below =>
          have present : nm o ∈ new.names nm := by
            by_contra absent
            rw [kidsOf_eq_none.mpr absent] at found
            cases found
          have rest_perm := ihr (new.update nm (nm o) (kids.merge nm))
          have new_perm := update_perm found (ihk below)
          rw [if_pos present]
          unfold merge at rest_perm
          rw [names_update] at rest_perm
          simp only [ids_cons]
          have swapped : (o :: ((kids.left nm below).ids ++
              (rest.left nm (new.update nm (nm o) (kids.merge nm))).ids)).Perm
              ((rest.left nm (new.update nm (nm o) (kids.merge nm))).ids ++
                o :: (kids.left nm below).ids) :=
            (List.perm_append_comm.cons o).trans List.perm_middle.symm
          have moved := swapped.append_left
            ((rest.absorb nm (new.update nm (nm o) (kids.merge nm))).append
              (rest.unmatched nm (new.names nm))).ids
          refine moved.trans ?_
          rw [← List.append_assoc]
          refine (rest_perm.append_right _).trans ?_
          have swap : ((new.update nm (nm o) (kids.merge nm)).ids ++ rest.ids ++
              o :: (kids.left nm below).ids).Perm
              (o :: ((new.update nm (nm o) (kids.merge nm)).ids ++ (kids.left nm below).ids ++
                rest.ids)) := by
            refine List.perm_middle.trans (List.Perm.cons o ?_)
            rw [List.append_assoc, List.append_assoc]
            exact List.perm_append_comm.append_left _
          refine swap.trans ((List.Perm.cons o (new_perm.append_right rest.ids)).trans ?_)
          rw [List.append_assoc]
          exact List.perm_middle.symm

end Forest

end Mpt.Tree
