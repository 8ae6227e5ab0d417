import Mpt.Tree.Pass

/-! # The run of a move -/

namespace Mpt.Tree

variable {nm : Nat → List Byte} {h h' : Nodes} {from_ o c l last : Nat} {owner up prev : Option Nat}
  {k r old target below : Forest}

/-- What a move leaves of a list in any case. -/
structure Passed (nm : Nat → List Byte) (h h' : Nodes) (from_ : Nat) (prev up : Option Nat)
    (old target : Forest) : Prop where
  list : Linked h' up none (old.pass nm target)
  same : ∀ i, i ≠ from_ → i ∉ old.ids → i ∉ target.ids → prev ≠ some i → h'.node i = h.node i
  before : ∀ p, prev = some p → h'.node p = { h.node p with next := (h'.node p).next }
  cell : h'.node from_ =
    { h.node from_ with children := old.pointer nm target (h.node from_).children }
  stays : ∀ s ∈ old.stays nm target, (h'.node s.node).children = s.children
  content : SameContent h h'
  size : h'.size = h.size

/-- The nodes of a list that stay when it is moved below a node. -/
def Forest.stayed (nm : Nat → List Byte) (kids below : Forest) : List Stay :=
  if below = .nil then [] else kids.stays nm below

theorem into_perm (nm : Nat → List Byte) (kids below : Forest) :
    ((kids.into nm below).ids ++ (kids.stayed nm below).map Stay.node).Perm
      (below.ids ++ kids.ids) := by
  unfold Forest.into Forest.stayed
  split
  · next empty => simp [empty]
  · exact Forest.pass_perm kids below

/-- The children of a node were moved to those of its counterpart. -/
structure Into (nm : Nat → List Byte) (h h' : Nodes) (o c : Nat) (kids below : Forest) : Prop where
  list : Linked h' (some c) none (kids.into nm below)
  same : ∀ i, i ≠ o → i ≠ c → i ∉ kids.ids → i ∉ below.ids → h'.node i = h.node i
  counterpart : h'.node c = { h.node c with children := (kids.into nm below).head? }
  node : h'.node o = { h.node o with
    children := if below = .nil then kids.head? else kids.pointer nm below kids.head? }
  stays : ∀ s ∈ kids.stayed nm below,
    (h'.node s.node).children = s.children
  content : SameContent h h'
  size : h'.size = h.size

/-- A node with a counterpart stays, and the rest of the list can be moved. -/
theorem Into.ready (a : Lists nm h from_ owner prev up (.cons o k r) target)
    (found : target.kidsOf nm (nm o) = some below) (find : named nm (nm o) target.tops = some c)
    (inner : Into nm h h' o c k below) :
    Lists nm h' from_ owner (some o) up r (target.update nm (nm o) fun _ => k.into nm below) ∧
      (from_ :: o :: (r.ids ++ ((target.update nm (nm o) fun _ => k.into nm below).ids ++
        (k.stayed nm below).map Stay.node))).Nodup := by
  obtain ⟨cell, ⟨_, _, more⟩, linked, nodup, sized, idents⟩ := a
  obtain ⟨absent, nodupBoth⟩ := List.nodup_cons.mp nodup
  obtain ⟨nodupOld, nodupNew, disjoint⟩ := List.nodup_append.mp nodupBoth
  obtain ⟨absentO, nodupKR⟩ := List.nodup_cons.mp nodupOld
  obtain ⟨_, _, disjointKR⟩ := List.nodup_append.mp nodupKR
  obtain ⟨c', find', memC, _, _, _, _, part⟩ := linked.kidsOf found nodupNew
  obtain rfl := Option.some.inj (find'.symm.trans find)
  have memC := Forest.mem_ids_of_mem_tops memC
  have perm := Forest.update_perm (f := fun _ => k.into nm below) found (into_perm nm k below)
  have all : (o :: (r.ids ++ ((target.update nm (nm o) fun _ => k.into nm below).ids ++
      (k.stayed nm below).map Stay.node))).Perm ((Forest.cons o k r).ids ++ target.ids) := by
    rw [List.perm_iff_count] at perm ⊢
    intro i
    have perm := perm i
    simp only [List.count_append, Forest.ids_cons, List.count_cons] at perm ⊢
    omega
  have once := (all.cons from_).nodup_iff.mpr nodup
  have inOld {i : Nat} (mem : i ∈ r.ids) : i ∈ (Forest.cons o k r).ids := by simp [mem]
  refine ⟨⟨cell, more.congr fun i mem => inner.same i ?_ ?_ ?_ ?_, ?_, ?_, fun i mem => ?_,
    fun i => (inner.content i).1.trans (idents i)⟩, once⟩
  · rintro rfl
    exact absentO (List.mem_append_right _ mem)
  · rintro rfl
    exact disjoint i (inOld mem) i memC rfl
  · exact fun mem' => disjointKR i mem' i mem rfl
  · exact fun mem' => disjoint i (inOld mem) i (part i mem') rfl
  · refine linked.replace found nodupNew find inner.list inner.counterpart fun i mem neC out =>
      inner.same i ?_ neC ?_ out
    · rintro rfl
      exact disjoint i (by simp) i mem rfl
    · exact fun mem' => disjoint i (by simp [mem']) i mem rfl
  · refine List.Sublist.nodup ?_ once
    refine List.Sublist.cons_cons from_ (List.Sublist.cons o ?_)
    exact (List.sublist_append_left _ _).append_left _
  · rw [inner.size]
    refine sized i (all.subset (List.mem_cons_of_mem o ?_))
    rcases List.mem_append.mp mem with mem | mem
    · exact List.mem_append_left _ mem
    · exact List.mem_append_right _ (List.mem_append_left _ mem)

/-- What is left of a list whose first node stays. -/
theorem Into.passed (a : Lists nm h from_ owner prev up (.cons o k r) target)
    (out : ∀ p, prev = some p → p ∉ from_ :: ((Forest.cons o k r).ids ++ target.ids))
    (found : target.kidsOf nm (nm o) = some below) (find : named nm (nm o) target.tops = some c)
    {h₁ : Nodes} (inner : Into nm h h₁ o c k below)
    (outer : Passed nm h₁ h' from_ (some o) up r
      (target.update nm (nm o) fun _ => k.into nm below)) :
    Passed nm h h' from_ prev up (.cons o k r) target := by
  obtain ⟨_, once⟩ := inner.ready a found find
  obtain ⟨cell, ⟨⟨_, _, above, children⟩, _, more⟩, linked, nodup, _, _⟩ := a
  obtain ⟨absent, nodupBoth⟩ := List.nodup_cons.mp nodup
  obtain ⟨_, nodupNew, disjoint⟩ := List.nodup_append.mp nodupBoth
  obtain ⟨c', find', memC, _, _, _, _, part⟩ := linked.kidsOf found nodupNew
  obtain rfl := Option.some.inj (find'.symm.trans find)
  have memC := Forest.mem_ids_of_mem_tops memC
  obtain ⟨absentF, once⟩ := List.nodup_cons.mp once
  obtain ⟨absentO, once⟩ := List.nodup_cons.mp once
  have perm := Forest.update_perm (f := fun _ => k.into nm below) found (into_perm nm k below)
  -- nodes outside are as they were
  have same {i : Nat} (neF : i ≠ from_) (outO : i ∉ (Forest.cons o k r).ids)
      (outT : i ∉ target.ids) : h'.node i = h.node i := by
    simp only [Forest.ids_cons, List.mem_cons, List.mem_append, not_or] at outO
    have outT' : i ∉ (target.update nm (nm o) fun _ => k.into nm below).ids := by
      intro mem
      rcases List.mem_append.mp (perm.subset (List.mem_append_left _ mem)) with mem | mem
      · exact outT mem
      · exact outO.2.1 mem
    rw [outer.same i neF outO.2.2 outT' fun eq => outO.1 (Option.some.inj eq).symm]
    refine inner.same i outO.1 ?_ outO.2.1 fun mem => outT (part i mem)
    rintro rfl
    exact outT memC
  have holder : h₁.node from_ = h.node from_ := by
    simp only [Forest.ids_cons, List.mem_cons, List.mem_append, not_or] at absent
    refine inner.same from_ absent.1.1 ?_ absent.1.2.1 fun mem => absent.2 (part from_ mem)
    rintro rfl
    exact absent.2 memC
  have stayed : h'.node o = { h₁.node o with next := (h'.node o).next } := outer.before o rfl
  refine ⟨?_, fun i neF outO outT _ => same neF outO outT, fun p eq => ?_, ?_, ?_,
    inner.content.trans outer.content, outer.size.trans inner.size⟩
  · rw [Forest.pass_match found]
    exact outer.list
  · have outP := out p eq
    simp only [List.mem_cons, List.mem_append, not_or] at outP
    rw [same outP.1 (by simpa using outP.2.1) outP.2.2]
  · rw [Forest.pointer_match found, outer.cell, holder]
  · rw [Forest.stays_match found]
    intro s mem
    rcases List.mem_cons.mp mem with rfl | mem
    · rw [stayed, inner.node]
    · rcases List.mem_append.mp mem with mem | mem
      · -- it is not met again
        have mem : s ∈ k.stayed nm below := mem
        have listed : s.node ∈ (k.stayed nm below).map Stay.node := List.mem_map.mpr ⟨s, mem, rfl⟩
        obtain ⟨_, onceT, apart⟩ := List.nodup_append.mp once
        have outR : s.node ∉ r.ids := fun mem =>
          apart s.node mem s.node (List.mem_append_right _ listed) rfl
        have outT : s.node ∉ (target.update nm (nm o) fun _ => k.into nm below).ids := fun mem =>
          (List.nodup_append.mp onceT).2.2 s.node mem s.node listed rfl
        have neO : some o ≠ some s.node := by
          intro eq
          cases eq
          exact absentO (List.mem_append_right _ (List.mem_append_right _ listed))
        have neF : s.node ≠ from_ := by
          intro eq
          rw [eq] at listed
          refine absentF (List.mem_cons_of_mem o (List.mem_append_right _ ?_))
          exact List.mem_append_right _ listed
        rw [outer.same s.node neF outR outT neO]
        exact inner.stays s mem
      · exact outer.stays s mem

namespace Into

/-- There are no children to move. -/
theorem none (linked : Linked h (some c) .none below) (children : (h.node o).children = .none)
    (known : (h.node c).children = below.head?) : Into nm h h o c .nil below := by
  have eq : Forest.nil.into nm below = below := Forest.into_nil below
  have stay : Forest.nil.stayed nm below = [] := by
    unfold Forest.stayed
    split <;> rfl
  refine ⟨?_, fun _ _ _ _ _ => rfl, ?_, ?_, ?_, SameContent.refl h, rfl⟩
  · rw [eq]
    exact linked
  · rw [eq, ← known]
  · refine node_ext rfl rfl rfl rfl rfl ?_
    rw [children]
    split <;> rfl
  · rw [stay]
    exact fun s mem => nomatch mem

/-- The counterpart has no children. -/
theorem reparent (nm : Nat → List Byte) (linked : Linked h (some o) .none k)
    (children : (h.node o).children = k.head?) (nodup : (o :: c :: k.ids).Nodup)
    (enough : k.tops.length ≤ h.size) (move : Nat) :
    ∃ h' move', (h.setChildren c k.head?).parentLoop k.head? c move h.size = (h', move') ∧
      Into nm h h' o c k .nil := by
  obtain ⟨absentO, nodup⟩ := List.nodup_cons.mp nodup
  obtain ⟨absentC, nodup⟩ := List.nodup_cons.mp nodup
  have ne : o ≠ c := fun eq => absentO (by simp [eq])
  have same (i : Nat) (other : i ≠ c) : (h.setChildren c k.head?).node i = h.node i :=
    Nodes.set_other _ _ other
  have linked' : Linked (h.setChildren c k.head?) (some o) .none k := by
    refine linked.congr fun i mem => same i ?_
    rintro rfl
    exact absentC mem
  obtain ⟨h', move', run, below, rest, content, size⟩ := parentLoop_spec linked' nodup c move enough
  refine ⟨h', move', run, below, fun i _ neC out _ => ?_, ?_, ?_, fun s mem => (nomatch mem), ?_,
    size⟩
  · rw [rest i fun mem => out (Forest.mem_ids_of_mem_tops mem), same i neC]
  · rw [rest c fun mem => absentC (Forest.mem_ids_of_mem_tops mem)]
    exact Nodes.set_node _ _ _
  · have out : o ∉ k.tops := fun mem =>
      absentO (List.mem_cons_of_mem c (Forest.mem_ids_of_mem_tops mem))
    rw [rest o out, same o ne, if_pos rfl, ← children]
  · exact (SameContent.setChildren (SameContent.refl h) c _).trans content

/-- The counterpart has children. -/
theorem of_passed (some_ : below ≠ .nil) (children : (h.node o).children = k.head?)
    (known : (h.node c).children = below.head?) (ne : c ≠ o) (out : c ∉ k.ids)
    (out' : c ∉ below.ids) (passed : Passed nm h h' o .none (some c) k below) :
    Into nm h h' o c k below := by
  have eq : k.into nm below = k.pass nm below := if_neg some_
  have stay : k.stayed nm below = k.stays nm below := if_neg some_
  refine ⟨?_, fun i neO _ outK outB => passed.same i neO outK outB nofun, ?_, ?_, ?_,
    passed.content, passed.size⟩
  · rw [eq]
    exact passed.list
  · rw [passed.same c ne out out' nofun, eq, Forest.head_pass some_, ← known]
  · rw [passed.cell, if_neg some_, children]
  · rw [stay]
    exact passed.stays

end Into

/-- Moving a list, whatever the names are. -/
theorem moveLoop_passes (old : Forest) {fuel dst : Nat}
    (a : Lists nm h from_ owner prev up old target)
    (out : ∀ p, prev = some p → p ∉ from_ :: (old.ids ++ target.ids))
    (head : target.head? = some dst) (mem : last ∈ target.tops) (enough : old.ids.length ≤ fuel)
    (move : Nat) :
    ∃ h' move', Nodes.moveLoop fuel h from_ dst last old.head? move = (h', move') ∧
      Passed nm h h' from_ prev up old target := by
  induction old generalizing fuel h from_ dst last owner target prev up move with
  | nil =>
      refine ⟨h, move, ?_, a.newLinked, fun _ _ _ _ _ => rfl, fun _ _ => rfl, rfl,
        fun s mem => (by cases mem), SameContent.refl h, rfl⟩
      cases fuel <;> rfl
  | cons o k r ihk ihr =>
      cases fuel with
      | zero => exact absurd enough (by simp)
      | succ fuel =>
          simp only [Forest.ids_cons, List.length_cons, List.length_append] at enough
          have enoughK : k.ids.length ≤ fuel := by omega
          have enoughR : r.ids.length ≤ fuel := by omega
          obtain ⟨nodupOld, nodupNew, disjoint⟩ :=
            List.nodup_append.mp (List.nodup_cons.mp a.nodup).2
          obtain ⟨absentO, nodupKR⟩ := List.nodup_cons.mp nodupOld
          have nodupK := (List.nodup_append.mp nodupKR).1
          obtain ⟨⟨_, after, _, children⟩, belowO, _⟩ := a.oldLinked
          have locate := nodeLocate_eq a.idents a.newLinked head nodupNew
            (fun i mem => a.below i (List.mem_append_right _ mem)) (nm o)
          rw [Forest.head?, Nodes.moveLoop, a.idents o, locate]
          cases found : target.kidsOf nm (nm o) with
          | none =>
              have lone : named nm (nm o) target.tops = none :=
                named_none (Forest.kidsOf_eq_none.mp found)
              obtain ⟨a', out', same, before, cell, content, size⟩ := kept_ready a out mem
              have head' : (target.append (.cons o k .nil)).head? = some dst := by
                rw [Forest.head?_eq, Forest.tops_append, List.head?_append, ← Forest.head?_eq, head]
                rfl
              obtain ⟨h', move', run, passed⟩ := ihr a' out' head'
                (show o ∈ (target.append (.cons o k .nil)).tops by simp) enoughR (move + 1)
              refine ⟨h', move', ?_, ?_, fun i neF outO outT neP => ?_, fun p eq => ?_, ?_, ?_,
                content.trans passed.content, passed.size.trans size⟩
              · simp only [lone, after]
                exact run
              · rw [Forest.pass_keep found]
                exact passed.list
              · have outO' := outO
                simp only [Forest.ids_cons, List.mem_cons, List.mem_append, not_or] at outO'
                rw [passed.same i neF outO'.2.2 ?_ neP, same i neF outO outT neP]
                simp [outT, outO'.1, outO'.2.1]
              · rw [passed.before p eq, before p eq]
              · rw [passed.cell, cell, Forest.pointer_keep found]
              · rw [Forest.stays_keep found]
                exact passed.stays
          | some below =>
              obtain ⟨c, find, memC, childrenC, apartC, lists⟩ := a.kids found
              have neC : c ≠ o := fun eq => disjoint o (by simp) c memC eq.symm
              have outC : c ∉ k.ids := fun mem => disjoint c (by simp [mem]) c memC rfl
              -- the rest of the list
              have finish : ∀ h₁, Into nm h h₁ o c k below → ∀ move, ∃ h' move',
                  Nodes.moveLoop fuel h₁ from_ dst last r.head? move = (h', move') ∧
                    Passed nm h h' from_ prev up (.cons o k r) target := by
                intro h₁ inner move
                obtain ⟨a', once⟩ := inner.ready a found find
                have tops : (target.update nm (nm o) fun _ => k.into nm below).tops = target.tops :=
                  Forest.tops_update (nm o) _ target
                obtain ⟨h', move', run, outer⟩ := ihr a' (fun p eq => by
                    obtain rfl := Option.some.inj eq
                    obtain ⟨absentF, once⟩ := List.nodup_cons.mp once
                    intro mem
                    rcases List.mem_cons.mp mem with rfl | mem
                    · exact absentF (by simp)
                    · refine (List.nodup_cons.mp once).1 ?_
                      rw [← List.append_assoc]
                      exact List.mem_append_left _ mem)
                  (by rw [Forest.head?_eq, tops, ← Forest.head?_eq, head]) (by rw [tops]; exact mem)
                  enoughR move
                exact ⟨h', move', run, inner.passed a out found find outer⟩
              simp only [find, children]
              cases k with
              | nil =>
                  obtain ⟨h', move', run, passed⟩ := finish h
                    (Into.none lists.newLinked children childrenC) move
                  refine ⟨h', move', ?_, passed⟩
                  simp only [Forest.head?, after]
                  exact run
              | cons i ks kr =>
                  cases below with
                  | nil =>
                      have short : (Forest.cons i ks kr).tops.length ≤ h.size :=
                        length_le_of_below (Forest.nodup_tops nodupK) fun j mem => a.below j (by
                          have := Forest.mem_ids_of_mem_tops mem
                          simp only [Forest.ids_cons] at this ⊢
                          exact List.mem_append_left _ (List.mem_cons_of_mem o
                            (List.mem_append_left _ this)))
                      obtain ⟨h₁, move₁, run₁, inner⟩ := Into.reparent (c := c) nm belowO children
                        (List.nodup_cons.mpr ⟨fun mem => (List.mem_cons.mp mem).elim
                            (fun eq => neC eq.symm) fun mem => absentO (List.mem_append_left _ mem),
                          List.nodup_cons.mpr ⟨outC, nodupK⟩⟩) short move
                      obtain ⟨h', move', run, passed⟩ := finish h₁ inner move₁
                      have next : (h₁.node o).next = r.head? := by
                        rw [inner.node]
                        exact after
                      refine ⟨h', move', ?_, passed⟩
                      simp only [Forest.head?] at run₁
                      simp only [childrenC, Forest.head?, run₁, next]
                      exact run
                  | cons j bs br =>
                      obtain ⟨h₁, move₁, run₁, passed₁⟩ := ihk lists (fun _ none => by cases none) rfl
                        (show j ∈ (Forest.cons j bs br).tops by simp) enoughK move
                      have into :=
                        Into.of_passed (by simp) children childrenC neC outC apartC passed₁
                      obtain ⟨h', move', run, passed⟩ := finish h₁ into move₁
                      have next : (h₁.node o).next = r.head? := by
                        rw [into.node]
                        exact after
                      refine ⟨h', move', ?_, passed⟩
                      simp only [Forest.head?] at run₁
                      simp only [childrenC, Forest.head?, run₁, next]
                      exact run

end Mpt.Tree
