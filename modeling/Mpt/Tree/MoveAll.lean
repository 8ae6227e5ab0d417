import Mpt.Tree.Handover
import Mpt.Tree.PassRun

/-! # Moving the nodes that are missing in another list -/

namespace Mpt.Tree

variable {nm : Nat → List Byte} {h h' : Nodes} {from_ move : Nat} {owner up : Option Nat}
  {old new : Forest}

/-- Nodes without a counterpart are behind the others, in their order, and the lists below the other
    ones are merged; what stays is the list that the pointer leads to, and each node is in one of the
    two. -/
structure MovedAll (nm : Nat → List Byte) (h h' : Nodes) (from_ : Nat) (owner up : Option Nat)
    (old new : Forest) (move : Nat) : Prop where
  target : Linked h' up none (old.merge nm new)
  source : Linked h' owner none (old.left nm new)
  first : (h'.node from_).children = (old.left nm new).head?
  once : ((old.merge nm new).ids ++ (old.left nm new).ids).Nodup
  all : ((old.merge nm new).ids ++ (old.left nm new).ids).Perm (new.ids ++ old.ids)
  holder : h'.node from_ = { h.node from_ with children := (h'.node from_).children }
  other : ∀ i, i ∉ from_ :: (old.ids ++ new.ids) → h'.node i = h.node i
  content : SameContent h h'
  count : move = old.moves nm new

/-- Nothing is to be moved, or there is a list to move it to and the condition for a merge is met. -/
def Movable (nm : Nat → List Byte) (old new : Forest) : Prop :=
  old = .nil ∨ new ≠ .nil ∧ old.Fine nm new

/-- Two lists that have nothing in common, one of which a pointer leads to: that of the parent, or one
    of its own when the nodes have no parent. -/
structure Separate (nm : Nat → List Byte) (h : Nodes) (from_ : Nat) (owner up : Option Nat)
    (old new : Forest) : Prop where
  lists : Lists nm h from_ owner none up old new
  first : (h.node from_).children = old.head?

/-- Only nodes stay that are to be left, and these have the right children. -/
structure OnlyLeft (nm : Nat → List Byte) (h : Nodes) (owner prev : Option Nat)
    (old new moved : Forest) : Prop where
  nodup : old.ids.Nodup
  stays : ∀ s ∈ old.stays nm (new.append moved),
    s.node ∈ (old.left nm new).ids ∧ (h.node s.node).children = s.children
  linked : Linked h owner prev (old.left nm new)

namespace OnlyLeft

variable {prev : Option Nat} {o : Nat} {k r moved below : Forest}

/-- A node without a counterpart has none among those either that were moved before. -/
theorem keep (only : OnlyLeft nm h owner prev (.cons o k r) new moved)
    (found : new.kidsOf nm (nm o) = none) :
    (new.append moved).kidsOf nm (nm o) = none ∧
      (Forest.cons o k r).left nm new = r.left nm new ∧
      OnlyLeft nm h owner prev r new (moved.append (.cons o k .nil)) := by
  obtain ⟨nodup, stays, linked⟩ := only
  obtain ⟨absent, nodupBoth⟩ := List.nodup_cons.mp nodup
  have left : (Forest.cons o k r).left nm new = r.left nm new := by
    conv_lhs => unfold Forest.left
    simp only [found]
  rw [left] at stays linked
  have lone : (new.append moved).kidsOf nm (nm o) = none := by
    cases other : (new.append moved).kidsOf nm (nm o) with
    | none => rfl
    | some below =>
        rw [Forest.stays_match other] at stays
        have mem := Forest.mem_left (stays _ List.mem_cons_self).1
        exact absurd (List.mem_append_right _ mem) absent
  rw [Forest.stays_keep lone, Forest.append_assoc] at stays
  exact ⟨lone, left, (List.nodup_append.mp nodupBoth).2.1, stays, linked⟩

theorem left_eq (found : new.kidsOf nm (nm o) = some below) :
    (Forest.cons o k r).left nm new =
      .cons o (k.left nm below) (r.left nm (new.update nm (nm o) (k.merge nm))) := by
  conv_lhs => unfold Forest.left
  simp only [found]

/-- Below a node with a counterpart the same holds. -/
theorem kids (only : OnlyLeft nm h owner prev (.cons o k r) new moved)
    (found : new.kidsOf nm (nm o) = some below) :
    k = .nil ∨ below ≠ .nil ∧ OnlyLeft nm h (some o) none k below .nil ∧
      k.pointer nm below k.head? = (k.left nm below).head? := by
  obtain ⟨nodup, stays, linked⟩ := only
  obtain ⟨absent, nodupBoth⟩ := List.nodup_cons.mp nodup
  obtain ⟨nodupK, _, disjoint⟩ := List.nodup_append.mp nodupBoth
  rw [left_eq found] at stays linked
  rw [Forest.stays_match (Forest.kidsOf_append moved found)] at stays
  obtain ⟨⟨_, _, _, children⟩, linkedK, _⟩ := linked
  have here := (stays _ List.mem_cons_self).2
  rw [children] at here
  by_cases empty : below = .nil
  · rw [if_pos empty, empty, Forest.left_nil] at here
    cases k with
    | nil => exact .inl rfl
    | cons i ks kr => cases here
  · rw [if_neg empty] at here
    refine .inr ⟨empty, ⟨nodupK, fun s mem => ?_, linkedK⟩, here.symm⟩
    rw [Forest.append_nil] at mem
    obtain ⟨stay, children⟩ := stays s (by
      refine List.mem_cons_of_mem _ (List.mem_append_left _ ?_)
      rw [if_neg empty]
      exact mem)
    have memK := Forest.mem_stays mem
    refine ⟨?_, children⟩
    simp only [Forest.ids_cons, List.mem_cons, List.mem_append] at stay
    rcases stay with eq | stay | stay
    · exact absurd (List.mem_append_left _ (eq ▸ memK)) absent
    · exact stay
    · exact absurd rfl (disjoint _ memK _ (Forest.mem_left stay))

/-- So it does for the rest of the list. -/
theorem rest (only : OnlyLeft nm h owner prev (.cons o k r) new moved)
    (found : new.kidsOf nm (nm o) = some below) (inner : k = .nil ∨ below ≠ .nil ∧ k.Fine nm below) :
    (new.append moved).update nm (nm o) (fun _ => k.into nm below) =
        (new.update nm (nm o) (k.merge nm)).append moved ∧
      OnlyLeft nm h owner (some o) r (new.update nm (nm o) (k.merge nm)) moved := by
  obtain ⟨nodup, stays, linked⟩ := only
  obtain ⟨absent, nodupBoth⟩ := List.nodup_cons.mp nodup
  obtain ⟨_, nodupR, disjoint⟩ := List.nodup_append.mp nodupBoth
  have same : (new.append moved).update nm (nm o) (fun _ => k.into nm below) =
      (new.update nm (nm o) (k.merge nm)).append moved := by
    rw [Forest.update_append moved found]
    exact congrArg (Forest.append · moved) (Forest.update_congr found (Forest.into_fine inner))
  rw [left_eq found] at stays linked
  rw [Forest.stays_match (Forest.kidsOf_append moved found), same] at stays
  refine ⟨same, nodupR, fun s mem => ?_, linked.2.2⟩
  obtain ⟨stay, children⟩ := stays s (List.mem_cons_of_mem _ (List.mem_append_right _ mem))
  have memR := Forest.mem_stays mem
  refine ⟨?_, children⟩
  simp only [Forest.ids_cons, List.mem_cons, List.mem_append] at stay
  rcases stay with eq | stay | stay
  · exact absurd (List.mem_append_right _ (eq ▸ memR)) absent
  · exact absurd rfl (disjoint _ (Forest.mem_left stay) _ memR)
  · exact stay

end OnlyLeft

/-- The condition for a merge is met when only nodes stay that are to be left.  The pointer to the
    list is right, or leads to a node before it. -/
theorem fine_of_left {prev : Option Nat} (moved : Forest)
    (only : OnlyLeft nm h owner prev old new moved)
    (pointer : old.pointer nm (new.append moved) old.head? = (old.left nm new).head? ∨
      ∃ i curr, i ∉ old.ids ∧ old.pointer nm (new.append moved) curr = some i) :
    old.Fine nm new ∧ (∀ x ∈ old.tops, nm x ∈ moved.names nm → nm x ∈ new.names nm) ∧
      ∀ i curr, i ∉ old.ids → old.pointer nm (new.append moved) curr = some i →
        ∀ x ∈ old.tops, nm x ∈ new.names nm := by
  induction old generalizing new moved owner prev with
  | nil => exact ⟨trivial, nofun, fun _ _ _ _ => nofun⟩
  | cons o k r ihk ihr =>
      have absent := (List.nodup_cons.mp only.nodup).1
      unfold Forest.Fine
      cases found : new.kidsOf nm (nm o) with
      | none =>
          have absent' := Forest.kidsOf_eq_none.mp found
          obtain ⟨lone, left, only'⟩ := only.keep found
          rw [left] at pointer
          simp only [Forest.pointer_keep lone, Forest.append_assoc] at pointer ⊢
          -- the pointer is set again
          have again {i : Nat} (out : i ∉ (Forest.cons o k r).ids)
              (eq : r.pointer nm (new.append (moved.append (.cons o k .nil))) r.head? = some i) :
              False := by
            rcases Forest.pointer_mem eq with mem | head
            · exact out (by simp [mem])
            · rw [Forest.head?_eq] at head
              exact out (by simp [Forest.mem_ids_of_mem_tops (List.mem_of_head? head)])
          have pointer := pointer.resolve_right fun before => by
            obtain ⟨i, _, out, eq⟩ := before
            exact again out eq
          obtain ⟨fine, others, _⟩ := ihr _ only' (.inl pointer)
          have alone : nm o ∉ moved.names nm := by
            rw [Forest.kidsOf_eq_none, Forest.names, Forest.tops_append, List.map_append,
              List.mem_append, not_or] at lone
            exact lone.2
          refine ⟨⟨fun mem => ?_, fine⟩, fun x mem named => ?_, fun i _ out eq =>
            (again out eq).elim⟩
          · obtain ⟨x, mem, same⟩ := List.mem_map.mp mem
            have taken := others x mem (by
              rw [same]
              simp [Forest.names])
            rw [same] at taken
            exact absent' taken
          · rcases List.mem_cons.mp mem with rfl | mem
            · exact absurd named alone
            · refine others x mem ?_
              rw [Forest.names, Forest.tops_append, List.map_append]
              exact List.mem_append_left _ named
      | some below =>
          have present : nm o ∈ new.names nm := by
            by_contra absent
            rw [Forest.kidsOf_eq_none.mpr absent] at found
            cases found
          have inner : k = .nil ∨ below ≠ .nil ∧ k.Fine nm below := by
            refine (only.kids found).imp_right fun more => ⟨more.1, ?_⟩
            refine (ihk .nil more.2.1 (.inl ?_)).1
            rw [Forest.append_nil]
            exact more.2.2
          obtain ⟨same, only'⟩ := only.rest found inner
          rw [OnlyLeft.left_eq found] at pointer
          simp only [Forest.pointer_match (Forest.kidsOf_append moved found), same] at pointer ⊢
          have pointerR : ∃ i curr, i ∉ r.ids ∧
              r.pointer nm ((new.update nm (nm o) (k.merge nm)).append moved) curr = some i := by
            rcases pointer with first | ⟨i, curr, out, eq⟩
            · exact ⟨o, some o, fun mem => absent (List.mem_append_right _ mem), first⟩
            · exact ⟨i, curr, fun mem => out (by simp [mem]), eq⟩
          obtain ⟨fine, others, all⟩ := ihr _ only' (.inr pointerR)
          obtain ⟨i, curr, out, eq⟩ := pointerR
          have matched := all i curr out eq
          simp only [Forest.names_update] at matched others
          refine ⟨⟨inner, matched, fine⟩, fun x mem named => ?_, fun i curr out eq x mem => ?_⟩
          · rcases List.mem_cons.mp mem with rfl | mem
            · exact present
            · exact others x mem named
          · rcases List.mem_cons.mp mem with rfl | mem
            · exact present
            · exact matched x mem

namespace Separate

/-- A move to a list that is not empty, as the loop sees it. -/
theorem target (s : Separate nm h from_ owner up old new) {dst : Nat} (head : new.head? = some dst) :
    old.ids.length ≤ h.size ∧ dst ∈ new.tops ∧
      h.nodeMove from_ new.head? = Nodes.moveLoop h.size h from_ dst dst old.head? 0 := by
  obtain ⟨nodupOld, _, _⟩ := List.nodup_append.mp (List.nodup_cons.mp s.lists.nodup).2
  refine ⟨length_le_of_below nodupOld fun i mem => s.lists.below i (List.mem_append_left _ mem),
    List.mem_of_head? ((Forest.head?_eq new).symm.trans head), ?_⟩
  rw [head, Nodes.nodeMove, s.first]

/-- The nodes that are missing are moved. -/
theorem moves (s : Separate nm h from_ owner up old new) (movable : Movable nm old new) :
    MovedAll nm h (h.nodeMove from_ new.head?).1 from_ owner up old new
      (h.nodeMove from_ new.head?).2 := by
  have nodup := (List.nodup_cons.mp s.lists.nodup).2
  have all : ((old.merge nm new).ids ++ (old.left nm new).ids).Perm (new.ids ++ old.ids) :=
    Forest.merge_perm old new
  have once : ((old.merge nm new).ids ++ (old.left nm new).ids).Nodup :=
    (all.trans List.perm_append_comm).nodup_iff.mpr nodup
  cases head : new.head? with
  | none =>
      -- there is no list to move to
      obtain rfl : new = .nil := by
        cases new with
        | nil => rfl
        | cons => cases head
      obtain rfl : old = .nil := movable.resolve_right fun more => more.1 rfl
      have none : h.nodeMove from_ none = (h, 0) := rfl
      rw [none]
      exact ⟨trivial, trivial, s.first, List.nodup_nil, List.Perm.refl _, rfl, fun _ _ => rfl,
        SameContent.refl h, rfl⟩
  | some dst =>
      have fine : old.Fine nm new := by
        rcases movable with rfl | ⟨_, fine⟩
        · trivial
        · exact fine
      obtain ⟨enough, mem, run⟩ := s.target head
      rw [← Forest.append_nil new] at head mem
      have lists := s.lists
      rw [← Forest.append_nil new] at lists
      obtain ⟨h', loop, merged⟩ := moveLoop_merged old lists head mem fine
        (fun o _ => by simp [Forest.names]) (.inr rfl) enough 0
      rw [Forest.append_nil] at head
      rw [← head, run, loop, Nat.zero_add]
      refine ⟨merged.target, merged.source, merged.first rfl s.first, once, all, merged.owner,
        fun i out => ?_, merged.content, rfl⟩
      simp only [List.mem_cons, List.mem_append, not_or] at out
      refine merged.same i out.1 out.2.1 fun mem => out.2.2 ?_
      rwa [Forest.append_nil] at mem

/-- Otherwise they are not. -/
theorem movable (s : Separate nm h from_ owner up old new)
    (moved : MovedAll nm h (h.nodeMove from_ new.head?).1 from_ owner up old new
      (h.nodeMove from_ new.head?).2) : Movable nm old new := by
  have nodup := (List.nodup_cons.mp s.lists.nodup).2
  cases head : new.head? with
  | none =>
      obtain rfl : new = .nil := by
        cases new with
        | nil => rfl
        | cons => cases head
      -- all of them are still there
      have none : (h.nodeMove from_ Forest.nil.head?).1 = h := rfl
      have first := moved.first
      rw [none, s.first, Forest.left_nil] at first
      cases old with
      | nil => exact .inl rfl
      | cons o kids rest => cases first
  | some dst =>
      obtain ⟨enough, mem, run⟩ := s.target head
      obtain ⟨h', move', loop, passed⟩ := moveLoop_passes old s.lists nofun head mem enough 0
      rw [run, loop] at moved
      have some_ : new ≠ .nil := by
        rintro rfl
        cases head
      -- both lists start with the same node
      have same : old.pass nm new = old.merge nm new := by
        refine passed.list.unique moved.target ?_
        rw [Forest.head_pass some_, Forest.head?_merge some_]
      have parts : ((old.stays nm new).map Stay.node).Perm (old.left nm new).ids := by
        refine (List.perm_append_left_iff (old.pass nm new).ids).mp ?_
        refine (Forest.pass_perm old new).trans ?_
        rw [same]
        exact moved.all.symm
      refine .inr ⟨some_, (fine_of_left .nil ⟨(List.nodup_append.mp nodup).1, fun i mem => ?_,
        moved.source⟩ (.inl ?_)).1⟩
      · rw [Forest.append_nil] at mem
        exact ⟨parts.subset (List.mem_map.mpr ⟨i, mem, rfl⟩), passed.stays i mem⟩
      · rw [Forest.append_nil, ← s.first, ← moved.first, passed.cell]

end Separate

/-- The nodes that are missing are moved exactly under this condition. -/
theorem nodeMove_all (s : Separate nm h from_ owner up old new) :
    MovedAll nm h (h.nodeMove from_ new.head?).1 from_ owner up old new
      (h.nodeMove from_ new.head?).2 ↔ Movable nm old new :=
  ⟨s.movable, s.moves⟩

/-- A node with two children, the second of which has a child and a counterpart with one. -/
def household : Nodes where
  node
    | 0 => { Nodes.single [] none with children := some 1 }
    | 1 => { Nodes.single [98] none with next := some 2, parent := some 0 }
    | 2 => { Nodes.single [97] none with prev := some 1, parent := some 0, children := some 3 }
    | 3 => { Nodes.single [120] none with parent := some 2 }
    | 4 => { Nodes.single [97] none with children := some 5 }
    | 5 => { Nodes.single [121] none with parent := some 4 }
    | _ => Nodes.single [] none
  size := 6

/-- The names of these nodes. -/
def household.name (i : Nat) : List Byte := (household.node i).ident

/-- The first child and the child of the second one are moved. -/
theorem nodeMove_household :
    (MovedAll household.name household (household.nodeMove 0 (some 4)).1 0 (some 0) none
      (.cons 1 .nil (.cons 2 (.cons 3 .nil .nil) .nil)) (.cons 4 (.cons 5 .nil .nil) .nil)
      (household.nodeMove 0 (some 4)).2 ↔
        Movable household.name (.cons 1 .nil (.cons 2 (.cons 3 .nil .nil) .nil))
          (.cons 4 (.cons 5 .nil .nil) .nil)) ∧
      Movable household.name (.cons 1 .nil (.cons 2 (.cons 3 .nil .nil) .nil))
        (.cons 4 (.cons 5 .nil .nil) .nil) := by
  have apart : Separate household.name household 0 (some 0) none
      (.cons 1 .nil (.cons 2 (.cons 3 .nil .nil) .nil)) (.cons 4 (.cons 5 .nil .nil) .nil) := by
    refine ⟨⟨.inl rfl, ?_, ?_, by decide, by decide, fun _ => rfl⟩, rfl⟩
    · simp [Linked, household, Nodes.single, Forest.head?]
    · simp [Linked, household, Nodes.single, Forest.head?]
  refine ⟨nodeMove_all apart, .inr ⟨by simp, ?_⟩⟩
  simp [Forest.Fine, Forest.kidsOf, Forest.names, household.name, household, Nodes.single]

/-- Two nodes, the first of which has a counterpart. -/
def couple : Nodes where
  node
    | 0 => { Nodes.single [] none with children := some 1 }
    | 1 => { Nodes.single [97] none with next := some 2, parent := some 0 }
    | 2 => { Nodes.single [98] none with prev := some 1, parent := some 0 }
    | 3 => Nodes.single [97] none
    | _ => Nodes.single [] none
  size := 4

/-- The node that was not moved is lost when the one behind it is. -/
theorem nodeMove_couple : ¬ ∀ (nm : Nat → List Byte) (h : Nodes) (from_ : Nat) (owner up : Option Nat)
    (old new : Forest), Separate nm h from_ owner up old new →
    MovedAll nm h (h.nodeMove from_ new.head?).1 from_ owner up old new
      (h.nodeMove from_ new.head?).2 := by
  intro claim
  have moved := claim (fun i => (couple.node i).ident) couple 0 (some 0) none
    (.cons 1 .nil (.cons 2 .nil .nil)) (.cons 3 .nil .nil)
    ⟨⟨.inl rfl, by simp [Linked, couple, Nodes.single, Forest.head?],
      by simp [Linked, couple, Nodes.single, Forest.head?], by decide, by decide, fun _ => rfl⟩, rfl⟩
  cases moved.first

end Mpt.Tree
