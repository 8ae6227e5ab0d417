import Mpt.Tree.Handover

/-! # What a move leaves in any case

The lists that are moved stay lists whatever their names are.  Only the pointers to the children of
nodes that stay can be wrong, and what is put behind the target may not be all there is to move.
-/

namespace Mpt.Tree

/-- A node that stays in its list, with the children that it knows. -/
structure Stay where
  node : Nat
  children : Option Nat

namespace Forest

variable (nm : Nat → List Byte)

/-- The target list after a move. -/
def pass : (old target : Forest) → Forest
  | nil, target => target
  | cons o kids rest, target =>
      match target.kidsOf nm (nm o) with
      | none => rest.pass (target.append (cons o kids nil))
      | some below =>
          rest.pass (target.update nm (nm o) fun _ => if below = nil then kids else kids.pass below)

/-- What is below a node after the children of its counterpart were moved. -/
def into (kids below : Forest) : Forest := if below = nil then kids else kids.pass nm below

/-- The pointer to a list after a move. -/
def pointer : (old target : Forest) → (curr : Option Nat) → Option Nat
  | nil, _, curr => curr
  | cons o kids rest, target, curr =>
      match target.kidsOf nm (nm o) with
      | none => rest.pointer (target.append (cons o kids nil)) rest.head?
      | some below => rest.pointer (target.update nm (nm o) fun _ => kids.into nm below) curr

/-- The nodes that stay, at all levels. -/
def stays : (old target : Forest) → List Stay
  | nil, _ => []
  | cons o kids rest, target =>
      match target.kidsOf nm (nm o) with
      | none => rest.stays (target.append (cons o kids nil))
      | some below =>
          ⟨o, if below = nil then kids.head? else kids.pointer nm below kids.head?⟩ ::
            ((if below = nil then [] else kids.stays below) ++
              rest.stays (target.update nm (nm o) fun _ => kids.into nm below))

variable {nm} {o : Nat} {kids rest target below : Forest}

theorem update_congr {name : List Byte} {f : Forest} {t t' : Forest → Forest}
    (found : f.kidsOf nm name = some below) (eq : t below = t' below) :
    f.update nm name t = f.update nm name t' := by
  induction f with
  | nil => rfl
  | cons i kids rest _ ih =>
      unfold kidsOf at found
      unfold update
      split at found
      · next same =>
          obtain rfl := Option.some.inj found
          rw [if_pos same, if_pos same, eq]
      · next other => rw [if_neg other, if_neg other, ih found]

theorem pass_keep (found : target.kidsOf nm (nm o) = none) :
    (cons o kids rest).pass nm target = rest.pass nm (target.append (cons o kids nil)) := by
  rw [pass, found]

theorem pass_match (found : target.kidsOf nm (nm o) = some below) :
    (cons o kids rest).pass nm target =
      rest.pass nm (target.update nm (nm o) fun _ => kids.into nm below) := by
  rw [pass, found]
  rfl

theorem pointer_keep (found : target.kidsOf nm (nm o) = none) (curr : Option Nat) :
    (cons o kids rest).pointer nm target curr =
      rest.pointer nm (target.append (cons o kids nil)) rest.head? := by
  rw [pointer, found]

theorem pointer_match (found : target.kidsOf nm (nm o) = some below) (curr : Option Nat) :
    (cons o kids rest).pointer nm target curr =
      rest.pointer nm (target.update nm (nm o) fun _ => kids.into nm below) curr := by
  rw [pointer, found]

theorem stays_keep (found : target.kidsOf nm (nm o) = none) :
    (cons o kids rest).stays nm target = rest.stays nm (target.append (cons o kids nil)) := by
  rw [stays, found]

theorem stays_match (found : target.kidsOf nm (nm o) = some below) :
    (cons o kids rest).stays nm target =
      ⟨o, if below = nil then kids.head? else kids.pointer nm below kids.head?⟩ ::
        ((if below = nil then [] else kids.stays nm below) ++
          rest.stays nm (target.update nm (nm o) fun _ => kids.into nm below)) := by
  rw [stays, found]

/-- Every node comes to the target or stays. -/
theorem pass_perm (old target : Forest) :
    ((old.pass nm target).ids ++ (old.stays nm target).map Stay.node).Perm
      (target.ids ++ old.ids) := by
  induction old generalizing target with
  | nil => simp [pass, stays]
  | cons o kids rest ihk ihr =>
      cases found : target.kidsOf nm (nm o) with
      | none =>
          rw [pass_keep found, stays_keep found]
          refine (ihr _).trans ?_
          simp
      | some below =>
          rw [pass_match found, stays_match found]
          have inner : ((kids.into nm below).ids ++
              ((if below = nil then [] else kids.stays nm below) : List Stay).map
                Stay.node).Perm (below.ids ++ kids.ids) := by
            by_cases empty : below = nil
            · simp [into, empty]
            · simpa [into, empty] using ihk below
          have outer := update_perm (f := fun _ => kids.into nm below) found inner
          have more := ihr (target.update nm (nm o) fun _ => kids.into nm below)
          rw [List.perm_iff_count] at outer more ⊢
          intro i
          have outer := outer i
          have more := more i
          simp only [List.count_append, List.map_cons, List.map_append, ids_cons, List.count_cons]
            at outer more ⊢
          omega

theorem head_pass {old target : Forest} (some_ : target ≠ nil) :
    (old.pass nm target).head? = target.head? := by
  induction old generalizing target with
  | nil => rfl
  | cons o kids rest _ ih =>
      cases found : target.kidsOf nm (nm o) with
      | none =>
          rw [pass_keep found, ih]
          · cases target with
            | nil => exact absurd rfl some_
            | cons i ks r => rfl
          · cases target with
            | nil => exact absurd rfl some_
            | cons i ks r => exact fun eq => by cases eq
      | some below =>
          rw [pass_match found, ih, head?_eq, tops_update, ← head?_eq]
          intro eq
          have tops : (target.update nm (nm o) fun _ => kids.into nm below).tops = target.tops :=
            tops_update (nm o) _ target
          rw [eq] at tops
          cases target with
          | nil => exact some_ rfl
          | cons i ks r => cases tops

/-- A node that stays is one of the list, or below it. -/
theorem mem_stays {old target : Forest} {s : Stay} (mem : s ∈ old.stays nm target) :
    s.node ∈ old.ids := by
  induction old generalizing target with
  | nil => cases mem
  | cons o kids rest ihk ihr =>
      cases found : target.kidsOf nm (nm o) with
      | none =>
          rw [stays_keep found] at mem
          simp [ihr mem]
      | some below =>
          rw [stays_match found] at mem
          rcases List.mem_cons.mp mem with rfl | mem
          · simp
          · rcases List.mem_append.mp mem with mem | mem
            · split at mem
              · cases mem
              · simp [ihk mem]
            · simp [ihr mem]

/-- So is a node that is left. -/
theorem mem_left {old new : Forest} {i : Nat} (mem : i ∈ (old.left nm new).ids) : i ∈ old.ids := by
  induction old generalizing new with
  | nil => cases mem
  | cons o kids rest ihk ihr =>
      unfold left at mem
      cases found : new.kidsOf nm (nm o) with
      | none =>
          simp only [found] at mem
          simp [ihr mem]
      | some below =>
          simp only [found, ids_cons, List.mem_cons, List.mem_append] at mem
          rcases mem with rfl | mem | mem
          · simp
          · simp [ihk mem]
          · simp [ihr mem]

/-- The pointer is not changed, or leads to a node of the list. -/
theorem pointer_mem {old target : Forest} {curr : Option Nat} {i : Nat}
    (eq : old.pointer nm target curr = some i) : i ∈ old.ids ∨ curr = some i := by
  induction old generalizing target curr with
  | nil => exact .inr eq
  | cons o kids rest _ ih =>
      cases found : target.kidsOf nm (nm o) with
      | none =>
          rw [pointer_keep found] at eq
          rcases ih eq with mem | head
          · exact .inl (by simp [mem])
          · rw [head?_eq] at head
            have mem := mem_ids_of_mem_tops (List.mem_of_head? head)
            exact .inl (by simp [mem])
      | some below =>
          rw [pointer_match found] at eq
          exact (ih eq).imp (fun mem => by simp [mem]) id

theorem into_nil (below : Forest) : nil.into nm below = below := by
  unfold into
  split
  · next empty => exact empty.symm
  · rfl

/-- Under the condition for a merge the lists are merged. -/
theorem pass_fine {old new moved : Forest} (fine : old.Fine nm new)
    (others : ∀ x ∈ old.tops, nm x ∈ moved.names nm → nm x ∈ new.names nm) :
    old.pass nm (new.append moved) =
      (old.absorb nm new).append (moved.append (old.unmatched nm (new.names nm))) := by
  induction old generalizing new moved with
  | nil => simp [pass, absorb, unmatched]
  | cons o kids rest ihk ihr =>
      unfold Fine at fine
      rw [absorb_cons]
      unfold unmatched
      cases found : new.kidsOf nm (nm o) with
      | none =>
          simp only [found] at fine
          have absent := kidsOf_eq_none.mp found
          have lone : (new.append moved).kidsOf nm (nm o) = none := by
            rw [kidsOf_eq_none, names, tops_append, List.map_append, List.mem_append, not_or]
            exact ⟨absent, fun mem => absent (others o (by simp) mem)⟩
          rw [pass_keep lone, update_none found, if_neg absent, append_assoc, ihr fine.2]
          · rw [append_assoc]
            rfl
          · intro x mem named
            simp only [names, tops_append, List.map_append, List.mem_append, tops_cons, tops_nil,
              List.map_cons, List.map_nil, List.mem_singleton] at named
            rcases named with named | same
            · exact others x (by simp [mem]) named
            · exact absurd (List.mem_map.mpr ⟨x, mem, same⟩) fine.1
      | some below =>
          simp only [found] at fine
          obtain ⟨inner, _, rest_fine⟩ := fine
          have present : nm o ∈ new.names nm := by
            by_contra absent
            rw [kidsOf_eq_none.mpr absent] at found
            cases found
          have eq : kids.into nm below = kids.merge nm below := by
            rcases inner with rfl | ⟨some_, fineK⟩
            · rw [into_nil, merge_nil]
            · have pass : kids.pass nm (below.append nil) = _ :=
                ihk fineK fun x _ mem => by cases mem
              rw [append_nil, nil_append] at pass
              exact (if_neg some_).trans pass
          have same : new.update nm (nm o) (fun _ => kids.into nm below) =
              new.update nm (nm o) (kids.merge nm) := update_congr found eq
          rw [pass_match (kidsOf_append moved found), update_append moved found, same, if_pos present,
            ihr rest_fine, names_update]
          intro x mem named
          rw [names_update]
          exact others x (by simp [mem]) named

theorem into_fine {kids below : Forest} (inner : kids = nil ∨ below ≠ nil ∧ kids.Fine nm below) :
    kids.into nm below = kids.merge nm below := by
  rcases inner with rfl | ⟨some_, fine⟩
  · rw [into_nil, merge_nil]
  · have pass : kids.pass nm (below.append nil) = _ := pass_fine fine fun x _ mem => nomatch mem
    rw [append_nil, nil_append] at pass
    exact (if_neg some_).trans pass

end Forest

end Mpt.Tree
