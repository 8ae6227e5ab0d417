import Mpt.Tree.Clone

/-! # What comes of a copy

The loop over a list keeps a list of leaves, since a node whose children were copied is the
end of the copy.
-/

namespace Mpt.Tree

section Run

open Forest (leaves)

/-- Leaves are a list whose nodes have no children. -/
theorem loose_leaves {h : Nodes} {prev : Option Nat} {ids : List Nat}
    (l : Linked h none prev (leaves ids)) : Loose h prev (ids.map fun i => (i, [])) := by
  induction ids generalizing prev with
  | nil => trivial
  | cons i ids ih =>
      obtain ⟨⟨before, after, above, children⟩, _, more⟩ := l
      refine ⟨⟨before, ?_, above, children⟩, trivial, ih more⟩
      rw [after, head?_leaves]
      cases ids <;> rfl

theorem mem_trees_leaves {i : Nat} {ids : List Nat} (mem : i ∈ ids) :
    (i, Forest.nil) ∈ (leaves ids).trees := by
  induction ids with
  | nil => cases mem
  | cons j ids ih =>
      rw [leaves, Forest.trees_cons]
      rcases List.mem_cons.mp mem with rfl | mem
      · exact List.mem_cons_self ..
      · exact List.mem_cons_of_mem _ (ih mem)

/-- The last one of some leaves gets a list of children. -/
theorem loose_last {h h' : Nodes} {prev : Option Nat} {ids kids : List Nat} {c : Nat}
    (l : Linked h none prev (leaves (ids ++ [c]))) (absent : c ∉ ids)
    (same : ∀ i ∈ ids, h'.node i = h.node i)
    (here : h'.node c = { h.node c with children := kids.head? })
    (below : Linked h' none none (leaves kids)) :
    Loose h' prev ((ids.map fun i => (i, [])) ++ [(c, kids)]) := by
  induction ids generalizing prev with
  | nil =>
      obtain ⟨⟨before, after, above, _⟩, _, _⟩ := l
      refine ⟨?_, below, trivial⟩
      rw [here]
      exact ⟨before, after, above, rfl⟩
  | cons i ids ih =>
      obtain ⟨⟨before, after, above, children⟩, _, more⟩ := l
      rw [List.mem_cons, not_or] at absent
      refine ⟨?_, trivial, ih more absent.2 fun j mem => same j (List.mem_cons_of_mem i mem)⟩
      rw [same i (by simp)]
      refine ⟨before, ?_, above, children⟩
      rw [after, head?_leaves]
      cases ids <;> rfl

@[simp] theorem looseIds_leaves (ids : List Nat) (g : List (Nat × List Nat)) :
    looseIds ((ids.map fun i => (i, [])) ++ g) = ids ++ looseIds g := by
  induction ids with
  | nil => rfl
  | cons i ids ih => rw [List.map_cons, List.cons_append, looseIds_cons, ih]; rfl

theorem nodeClone_eq (m : Supply) (w : Pool) (i : Nat) :
    w.nodeClone m i =
      if m.clones w.nodes i = false then .done w none
      else if m.cut w.nodes i = true then .fault
      else .done (w.born (w.nodes.node i)) (some w.nodes.size) := by
  unfold Pool.nodeClone Supply.clones Supply.cut
  cases value : (w.nodes.node i).value <;> cases m.value i <;> cases m.node i <;> simp [value]

variable (m : Supply) (h₀ : Nodes)

/-- What the loop comes to from a state `w`, where `ids` were created since `w₀`. -/
def Ends (w₀ w : Pool) (ids : List Nat) (f : Forest) : Cloning (Option Nat) → Prop
  | .stuck => False
  | .fault => f.broken (m.clones h₀) (m.cut h₀) = true
  | .done w' r => f.broken (m.clones h₀) (m.cut h₀) = false ∧
      if f.refused (m.clones h₀) = true then r = none ∧ Holds w₀ w' []
      else ∃ new, r = (ids ++ new).head? ∧ Holds w₀ w' (ids ++ new) ∧
        Linked w'.nodes none none (leaves (ids ++ new)) ∧
        (∀ j < w.nodes.size, (w'.nodes.node j).ident = (w.nodes.node j).ident ∧
          (w'.nodes.node j).value = (w.nodes.node j).value) ∧
        List.Forall₂ (fun i j => (w'.nodes.node j).ident = (h₀.node i).ident ∧
          (w'.nodes.node j).value = (h₀.node i).value) f.tops new

variable {m h₀}

/-- A node that is copied without children is followed by the rest of the list. -/
theorem Ends.cons {w₀ w w₂ : Pool} {ids : List Nat} {c i : Nat} {kids rest : Forest}
    {out : Cloning (Option Nat)} (can : m.clones h₀ i = true) (cut : m.cut h₀ i = false)
    (whole : kids.broken (m.clones h₀) (m.cut h₀) = false)
    (single : kids = .nil ∨ kids.refused (m.clones h₀) = true) (size : c < w₂.nodes.size)
    (grows : w.nodes.size ≤ w₂.nodes.size)
    (kept : ∀ j < w.nodes.size, (w₂.nodes.node j).ident = (w.nodes.node j).ident ∧
      (w₂.nodes.node j).value = (w.nodes.node j).value)
    (copy : (w₂.nodes.node c).ident = (h₀.node i).ident ∧
      (w₂.nodes.node c).value = (h₀.node i).value)
    (ends : Ends m h₀ w₀ w₂ (ids ++ [c]) rest out) :
    Ends m h₀ w₀ w ids (.cons i kids rest) out := by
  have broken : (Forest.cons i kids rest).broken (m.clones h₀) (m.cut h₀) =
      rest.broken (m.clones h₀) (m.cut h₀) := by
    rcases single with rfl | refused
    · simp [Forest.broken, can, cut]
    · simp [Forest.broken, can, cut, whole, refused]
  have refused : (Forest.cons i kids rest).refused (m.clones h₀) = rest.refused (m.clones h₀) := by
    rcases single with rfl | refused
    · simp [Forest.refused, can]
    · simp [Forest.refused, can, refused]
  cases out with
  | stuck => exact ends
  | fault => exact broken.trans ends
  | done w' r =>
      obtain ⟨sound, rest'⟩ := ends
      refine ⟨broken.trans sound, ?_⟩
      rw [refused]
      by_cases up : rest.refused (m.clones h₀) = true
      · rw [if_pos up] at rest' ⊢
        exact rest'
      · rw [if_neg up] at rest' ⊢
        obtain ⟨new, eq, holds, linked, kept', copies⟩ := rest'
        rw [List.append_assoc, List.singleton_append] at eq holds linked
        refine ⟨c :: new, eq, holds, linked, fun j inside => ?_, .cons ?_ copies⟩
        · have := kept' j (Nat.lt_of_lt_of_le inside grows)
          exact ⟨this.1.trans (kept j inside).1, this.2.trans (kept j inside).2⟩
        · have := kept' c size
          exact ⟨this.1.trans copy.1, this.2.trans copy.2⟩

/-- The leaves that were created are released. -/
theorem release_leaves {w₀ w : Pool} {ids : List Nat} (holds : Holds w₀ w ids)
    (linked : Linked w.nodes none none (leaves ids)) (bounded : w₀.Bounded) :
    Holds w₀ (Pool.release w.nodes.size w ids.head?) [] := by
  have loose := loose_leaves linked
  have room : ids.length ≤ w.nodes.size :=
    length_le_of_below holds.nodup fun j mem => (holds.fresh j mem).2
  have all := looseIds_leaves ids []
  rw [List.append_nil] at all
  have created : Holds w₀ w (looseIds (ids.map fun i => (i, [])) ++ []) := by
    rw [all]
    simpa [looseIds] using holds
  have room' : (ids.map fun i => (i, ([] : List Nat))).length ≤ w.nodes.size := by
    rw [List.length_map]
    exact room
  have given := release_spec loose created bounded room'
  rw [List.head?_map, Option.map_map] at given
  simpa [Function.comp_def] using given

/-- A new node is behind the leaves that were created. -/
structure Behind (w₀ w w' : Pool) (ids : List Nat) (n : Node) (c : Nat) : Prop where
  holds : Holds w₀ w' (ids ++ [c])
  linked : Linked w'.nodes none none (leaves (ids ++ [c]))
  inside : c < w'.nodes.size
  grows : w.nodes.size ≤ w'.nodes.size
  kept : ∀ j < w.nodes.size, (w'.nodes.node j).ident = (w.nodes.node j).ident ∧
    (w'.nodes.node j).value = (w.nodes.node j).value
  copy : (w'.nodes.node c).ident = n.ident ∧ (w'.nodes.node c).value = n.value

/-- A node that can be cloned is, and the clone gets its place behind the last one. -/
theorem nodeClone_behind {w₀ w : Pool} {ids : List Nat} {i : Nat}
    (can : m.clones w.nodes i = true) (cuts : m.cut w.nodes i = false) (holds : Holds w₀ w ids)
    (linked : Linked w.nodes none none (leaves ids)) :
    ∃ w₁ c, w.nodeClone m i = .done w₁ (some c) ∧
      Behind w₀ w (w₁.after ids.getLast? c) ids (w.nodes.node i) c := by
  refine ⟨w.born (w.nodes.node i), w.nodes.size, ?_, ?_⟩
  · rw [nodeClone_eq, can, cuts]
    rfl
  have holds₁ := holds.born (w.nodes.node i)
  have single : (w.born (w.nodes.node i)).nodes.node w.nodes.size =
      Nodes.single (w.nodes.node i).ident (w.nodes.node i).value := Nodes.new_node _ _ _
  have size₁ : (w.born (w.nodes.node i)).nodes.size = w.nodes.size + 1 := rfl
  have same₁ : ∀ j, j ≠ w.nodes.size →
      (w.born (w.nodes.node i)).nodes.node j = w.nodes.node j := fun j => Nodes.new_other _ _ _
  generalize w.born (w.nodes.node i) = w₁ at holds₁ single size₁ same₁
  have linked₁ : Linked w₁.nodes none none (leaves ids) := by
    refine linked.congr fun j mem => same₁ j ?_
    rw [ids_leaves] at mem
    have := (holds.fresh j mem).2
    omega
  obtain ⟨h, after_eq, size_h, content, same_h, linked_h⟩ :=
    after_spec linked₁ holds₁.nodup (by rw [single]; rfl)
  rw [after_eq]
  refine ⟨?_, linked_h, ?_, ?_, fun j before => ?_, ?_⟩
  · refine holds₁.relink content size_h fun j old => same_h j fun mem => ?_
    have := (holds₁.fresh j mem).1
    omega
  · show w.nodes.size < h.size
    omega
  · show w.nodes.size ≤ h.size
    omega
  · have := content j
    rw [this.1, this.2, same₁ j (by omega)]
    exact ⟨rfl, rfl⟩
  · have := content w.nodes.size
    rw [this.1, this.2, single]
    exact ⟨rfl, rfl⟩

/-- When its children were not copied, the clone goes on without them. -/
theorem Behind.single {w₀ w w₂ w₃ : Pool} {ids : List Nat} {n : Node} {c : Nat}
    (placed : Behind w₀ w w₂ ids n c) (holds₃ : Holds w₂ w₃ []) :
    Behind w₀ w (w₃.setChildren c none) ids n c ∧
      ∀ j < w₂.nodes.size, (w₃.setChildren c none).nodes.node j = w₂.nodes.node j := by
  have all := placed.holds.trans holds₃
  rw [List.append_nil] at all
  have same₃ : ∀ j < w₂.nodes.size, w₃.nodes.node j = w₂.nodes.node j := holds₃.old
  have linked₃ : Linked w₃.nodes none none (leaves (ids ++ [c])) := by
    refine placed.linked.congr fun j mem => same₃ j ?_
    rw [ids_leaves] at mem
    exact (placed.holds.fresh j mem).2
  have leaf : (w₃.nodes.node c).children = none :=
    (linked₃.tree (c, .nil) (mem_trees_leaves (by simp))).1
  have set_c : ∀ j, (w₃.setChildren c none).nodes.node j = w₃.nodes.node j := by
    intro j
    by_cases here : j = c
    · rw [here]
      show (w₃.nodes.set c _).node c = _
      rw [Nodes.set_node, ← leaf]
    · exact Nodes.set_other _ _ here
  refine ⟨⟨?_, linked₃.congr fun j _ => set_c j, Nat.lt_of_lt_of_le placed.inside holds₃.grows,
    Nat.le_trans placed.grows holds₃.grows, fun j before => ?_, ?_⟩, fun j before => ?_⟩
  · exact all.relink (sameContent_set _ c _ rfl rfl) rfl fun j _ => set_c j
  · rw [set_c, same₃ j (Nat.lt_of_lt_of_le before placed.grows)]
    exact placed.kept j before
  · rw [set_c, same₃ c placed.inside]
    exact placed.copy
  · rw [set_c, same₃ j before]

/-- When they were copied, everything is given up. -/
theorem Behind.release {w₀ w w₂ w₃ : Pool} {ids : List Nat} {n : Node} {c k : Nat}
    {new : List Nat} (placed : Behind w₀ w w₂ ids n c) (bounded : w₀.Bounded)
    (holds₃ : Holds w₂ w₃ (k :: new)) (linked₃ : Linked w₃.nodes none none (leaves (k :: new))) :
    Holds w₀ (Pool.release w₃.nodes.size (w₃.setChildren c (some k)) (ids ++ [c]).head?) [] := by
  have holds₂ := placed.holds
  have all := holds₂.trans holds₃
  have same₃ : ∀ j < w₂.nodes.size, w₃.nodes.node j = w₂.nodes.node j := holds₃.old
  have other : ∀ j, j ≠ c → (w₃.setChildren c (some k)).nodes.node j = w₃.nodes.node j :=
    fun j ne => Nodes.set_other _ _ ne
  have apart : ∀ j ∈ k :: new, j ≠ c := by
    rintro j mem rfl
    have := (holds₃.fresh j mem).1
    have := placed.inside
    omega
  have absent : c ∉ ids := fun mem =>
    (List.nodup_append.mp holds₂.nodup).2.2 c mem c (by simp) rfl
  have loose : Loose (w₃.setChildren c (some k)).nodes none
      ((ids.map fun i => (i, [])) ++ [(c, k :: new)]) := by
    refine loose_last placed.linked absent ?_ ?_ ?_
    · intro j mem
      rw [other j fun eq => absent (eq ▸ mem)]
      exact same₃ j (holds₂.fresh j (List.mem_append_left _ mem)).2
    · rw [← same₃ c placed.inside]
      exact Nodes.set_node _ _ _
    · refine linked₃.congr fun j mem => other j (apart j ?_)
      rwa [ids_leaves] at mem
  have holds₄ : Holds w₀ (w₃.setChildren c (some k))
      (looseIds ((ids.map fun i => (i, [])) ++ [(c, k :: new)]) ++ []) := by
    have ids_eq : looseIds ((ids.map fun i => (i, [])) ++ [(c, k :: new)]) ++ [] =
        ids ++ [c] ++ k :: new := by
      rw [looseIds_leaves]
      simp [looseIds]
    rw [ids_eq]
    refine all.relink (sameContent_set _ c _ rfl rfl) rfl fun j old => other j ?_
    rintro rfl
    have := (holds₂.fresh j (by simp)).1
    omega
  have room : ((ids.map fun i => (i, [])) ++ [(c, k :: new)]).length ≤
      (w₃.setChildren c (some k)).nodes.size := by
    have bound := length_le_of_below all.nodup fun j mem => (all.fresh j mem).2
    simp only [List.length_append, List.length_cons, List.length_map,
      List.length_nil] at bound ⊢
    show _ ≤ w₃.nodes.size
    omega
  have given := release_spec loose holds₄ bounded room
  have head : ((ids.map fun i => (i, [])) ++ [(c, k :: new)]).head?.map Prod.fst =
      (ids ++ [c]).head? := by
    cases ids <;> rfl
  rwa [head] at given

/-- A copy of a list is complete or given up. -/
theorem listLoop_ends (f : Forest) {w₀ w : Pool} {up prev : Option Nat} (ids : List Nat) {fuel : Nat}
    (l : Linked h₀ up prev f)
    (source : ∀ i ∈ f.ids, i < w₀.nodes.size ∧ w₀.nodes.node i = h₀.node i) (bounded : w₀.Bounded)
    (holds : Holds w₀ w ids) (linked : Linked w.nodes none none (leaves ids))
    (enough : f.ids.length ≤ fuel) :
    Ends m h₀ w₀ w ids f (w.listLoop m fuel f.head? ids.head? ids.getLast?) := by
  induction f generalizing w₀ w up prev ids fuel with
  | nil =>
      have eq : w.listLoop m fuel none ids.head? ids.getLast? = .done w ids.head? := by
        cases fuel <;> rfl
      rw [Forest.head?, eq]
      refine ⟨rfl, ?_⟩
      rw [if_neg (by simp [Forest.refused])]
      refine ⟨[], by rw [List.append_nil], ?_, ?_, fun _ _ => ⟨rfl, rfl⟩, .nil⟩
      · rwa [List.append_nil]
      · rwa [List.append_nil]
  | cons i kids rest ihk ihr =>
      obtain ⟨⟨_, after, _, children⟩, below, more⟩ := l
      simp only [Forest.ids_cons, List.length_cons, List.length_append] at enough
      obtain ⟨n, rfl⟩ := Nat.exists_eq_add_of_le' (show 1 ≤ fuel by omega)
      obtain ⟨inside, node₀⟩ := source i (by simp)
      have node : w.nodes.node i = h₀.node i := (holds.old i inside).trans node₀
      have clones : m.clones w.nodes i = m.clones h₀ i := by simp only [Supply.clones, node]
      have cut : m.cut w.nodes i = m.cut h₀ i := by simp only [Supply.cut, node]
      rw [Forest.head?, Pool.listLoop]
      by_cases can : m.clones h₀ i = false
      · -- the node cannot be cloned
        rw [nodeClone_eq, clones, if_pos can]
        refine ⟨by simp [Forest.broken, can], ?_⟩
        rw [if_pos (by simp [Forest.refused, can])]
        exact ⟨rfl, release_leaves holds linked bounded⟩
      · have can : m.clones h₀ i = true := by simpa using can
        by_cases cuts : m.cut h₀ i = true
        · rw [nodeClone_eq, clones, cut, if_neg (by simp [can]), if_pos cuts]
          simp [Ends, Forest.broken, can, cuts]
        · have cuts : m.cut h₀ i = false := by simpa using cuts
          obtain ⟨w₁, c, run, placed⟩ :=
            nodeClone_behind (clones.trans can) (cut.trans cuts) holds linked
          rw [node] at placed
          simp only [run]
          generalize w₁.after ids.getLast? c = w₂ at placed ⊢
          have first : (if ids.getLast?.isNone then some c else ids.head?) = (ids ++ [c]).head? := by
            cases ids with
            | nil => rfl
            | cons a ids => simp [List.getLast?_cons]
          have last : some c = (ids ++ [c]).getLast? := by simp
          have node₂ : w₂.nodes.node i = h₀.node i := (placed.holds.old i inside).trans node₀
          rw [first, last, node₂, after, children]
          cases kids with
          | nil =>
              refine Ends.cons can cuts rfl (.inl rfl) placed.inside placed.grows placed.kept
                placed.copy ?_
              exact ihr _ more (fun j mem => source j (by simp [mem])) bounded placed.holds
                placed.linked (by omega)
          | cons k below' others =>
              have source₂ : ∀ j ∈ (Forest.cons k below' others).ids,
                  j < w₂.nodes.size ∧ w₂.nodes.node j = h₀.node j := by
                intro j mem
                obtain ⟨old, eq⟩ := source j (List.mem_cons_of_mem i (List.mem_append_left _ mem))
                exact ⟨Nat.lt_of_lt_of_le old placed.holds.grows, (placed.holds.old j old).trans eq⟩
              have nested := ihk [] below source₂ (placed.holds.bounded bounded) (Holds.refl w₂)
                trivial (show _ ≤ n by omega)
              simp only [Forest.head?, List.head?_nil, List.getLast?_nil] at nested ⊢
              cases run : w₂.listLoop m n (some k) none none with
              | stuck =>
                  rw [run] at nested
                  exact nested.elim
              | fault =>
                  rw [run] at nested
                  have broken : (Forest.cons k below' others).broken (m.clones h₀) (m.cut h₀) = true :=
                    nested
                  show (Forest.cons i _ rest).broken _ _ = true
                  rw [Forest.broken]
                  simp [can, broken]
              | done w₃ r =>
                  rw [run] at nested
                  obtain ⟨whole, nested⟩ := nested
                  by_cases refused : (Forest.cons k below' others).refused (m.clones h₀) = true
                  · -- the children were not copied
                    rw [if_pos refused] at nested
                    obtain ⟨rfl, holds₃⟩ := nested
                    obtain ⟨placed₄, same₄⟩ := placed.single holds₃
                    have next : ((w₃.setChildren c none).nodes.node i).next = rest.head? := by
                      rw [same₄ i (Nat.lt_of_lt_of_le inside placed.holds.grows), node₂, after]
                    simp only [next]
                    refine Ends.cons can cuts whole (.inr refused) placed₄.inside placed₄.grows
                      placed₄.kept placed₄.copy ?_
                    exact ihr _ more (fun j mem => source j (by simp [mem])) bounded placed₄.holds
                      placed₄.linked (by omega)
                  · rw [if_neg refused] at nested
                    obtain ⟨new, rfl, holds₃, linked₃, _, copies⟩ := nested
                    rw [List.nil_append] at holds₃ linked₃ ⊢
                    obtain ⟨k', new', rfl⟩ : ∃ k' new', new = k' :: new' := by
                      cases copies with
                      | cons _ _ => exact ⟨_, _, rfl⟩
                    simp only [List.head?_cons]
                    refine ⟨?_, ?_⟩
                    · rw [Forest.broken, whole]
                      simp [cuts, refused]
                    · rw [if_pos]
                      · exact ⟨rfl, placed.release bounded holds₃ linked₃⟩
                      · rw [Forest.refused]
                        simp [refused]

end Run

/-- There is one forest below the links of a first node. -/
theorem Linked.unique {h : Nodes} {up up' prev prev' : Option Nat} {f g : Forest}
    (lf : Linked h up prev f) (lg : Linked h up' prev' g) (first : f.head? = g.head?) : f = g := by
  induction f generalizing up up' prev prev' g with
  | nil =>
      cases g with
      | nil => rfl
      | cons j kids' rest' => cases first
  | cons i kids rest ihk ihr =>
      cases g with
      | nil => cases first
      | cons j kids' rest' =>
          obtain rfl : i = j := Option.some.inj first
          obtain ⟨⟨_, after, _, children⟩, below, more⟩ := lf
          obtain ⟨⟨_, after', _, children'⟩, below', more'⟩ := lg
          rw [ihk below below' (children.symm.trans children'), ihr more more' (after.symm.trans after')]

section Cloned

open Forest (leaves)

/-- A copy is complete, with new nodes only, and linked as a forest of its own, or there is none and
    nothing is left of it. -/
def Cloned (w : Pool) (f : Forest) : Cloning (Option Nat) → Prop
  | .done w' r =>
      (∃ g, r = g.head? ∧ Linked w'.nodes none none g ∧ Alike w.nodes w'.nodes f g ∧
        Holds w w' g.ids) ∨ (r = none ∧ Holds w w' [])
  | _ => False

/-- Copies of the nodes at the top are a copy of the forest if no one has children. -/
theorem alike_leaves {h h' : Nodes} {f : Forest} {new : List Nat} (flat : f.Flat)
    (copies : List.Forall₂ (fun i j => (h'.node j).ident = (h.node i).ident ∧
      (h'.node j).value = (h.node i).value) f.tops new) : Alike h h' f (leaves new) := by
  induction f generalizing new with
  | nil =>
      cases copies
      trivial
  | cons i kids rest _ ih =>
      obtain ⟨rfl, flat⟩ := flat
      cases copies with
      | cons here more => exact ⟨here, trivial, ih flat more⟩

theorem flat_of_alike {h h' : Nodes} {f : Forest} {new : List Nat}
    (alike : Alike h h' f (leaves new)) : f.Flat := by
  induction f generalizing new with
  | nil => trivial
  | cons i kids rest _ ih =>
      cases new with
      | nil => exact alike.elim
      | cons j new =>
          obtain ⟨_, below, more⟩ := alike
          refine ⟨?_, ih more⟩
          cases kids with
          | nil => rfl
          | cons k below' others => exact below.elim

variable {m : Supply} {w : Pool} {up prev : Option Nat} {f : Forest}

/-- A list is copied as it should be if no node of it has children, and otherwise only if the copy is
    given up. -/
theorem listClone_cloned (linked : Linked w.nodes up prev f) (inside : ∀ i ∈ f.ids, i < w.nodes.size)
    (bounded : w.Bounded) {fuel : Nat} (enough : f.ids.length ≤ fuel) :
    Cloned w f (w.listClone m fuel f.head?) ↔
      f.broken (m.clones w.nodes) (m.cut w.nodes) = false ∧
        (f.Flat ∨ f.refused (m.clones w.nodes) = true) := by
  have ends := listLoop_ends (m := m) f [] linked (fun i mem => ⟨inside i mem, rfl⟩) bounded
    (Holds.refl w) trivial enough
  unfold Pool.listClone
  simp only [List.head?_nil, List.getLast?_nil] at ends
  cases run : w.listLoop m fuel f.head? none none with
  | stuck =>
      rw [run] at ends
      exact ends.elim
  | fault =>
      rw [run] at ends
      have broken : f.broken (m.clones w.nodes) (m.cut w.nodes) = true := ends
      rw [broken]
      exact iff_of_false (fun cloned => cloned) fun h => Bool.noConfusion h.1
  | done w' r =>
      rw [run] at ends
      obtain ⟨whole, ends⟩ := ends
      by_cases refused : f.refused (m.clones w.nodes) = true
      · rw [if_pos refused] at ends
        exact iff_of_true (.inr ends) ⟨whole, .inr refused⟩
      · rw [if_neg refused] at ends
        obtain ⟨new, rfl, holds, linked', _, copies⟩ := ends
        simp only [List.nil_append] at holds linked'
        constructor
        · rintro (⟨g, first, linked'', alike, _⟩ | ⟨none, _⟩)
          · rw [List.nil_append, ← head?_leaves] at first
            rw [← Linked.unique linked' linked'' first] at alike
            exact ⟨whole, .inl (flat_of_alike alike)⟩
          · cases new with
            | cons j new => cases none
            | nil =>
                cases f with
                | nil => exact ⟨whole, .inl trivial⟩
                | cons i kids rest => cases copies
        · rintro ⟨_, flat | up⟩
          · refine .inl ⟨leaves new, ?_, linked', alike_leaves flat copies, ?_⟩
            · rw [head?_leaves, List.nil_append]
            · rwa [ids_leaves]
          · exact absurd up refused

/-- A copy whose children were not copied is destroyed. -/
theorem destroy_single {w₁ w₂ : Pool} {c : Nat} {n : Node} (holds : Holds w w₁ [c])
    (single : w₁.nodes.node c = Nodes.single n.ident n.value) (bounded : w.Bounded)
    (holds₂ : Holds w₁ w₂ []) : Holds w ((w₂.setChildren c none).destroy c) [] := by
  have fresh := holds.fresh c (by simp)
  have here : (w₂.setChildren c none).nodes.node c = Nodes.single n.ident n.value := by
    refine (Nodes.set_node _ _ _).trans ?_
    rw [holds₂.old c fresh.2, single]
    rfl
  have all : Holds w (w₂.setChildren c none) (c :: [] ++ []) := by
    refine (holds.trans holds₂).relink (sameContent_set _ c _ rfl rfl) rfl fun j old => ?_
    exact Nodes.set_other _ _ (by omega)
  obtain ⟨gone, _⟩ := @destroy_spec w (w₂.setChildren c none) c [] []
    (by rw [here]; exact ⟨rfl, rfl, rfl⟩) (by rw [here]; rfl) trivial all bounded
  exact gone

/-- Copied children do not know their parent. -/
theorem not_linked_children {h : Nodes} {c k : Nat} {new : List Nat} {g : Forest}
    (linked : Linked h none none (leaves (k :: new))) (other : k ≠ c) (first : some c = g.head?) :
    ¬ Linked (h.setChildren c (some k)) none none g := by
  intro linked'
  cases g with
  | nil => cases first
  | cons j kids rest =>
      obtain rfl : c = j := Option.some.inj first
      obtain ⟨⟨_, _, _, children⟩, below, _⟩ := linked'
      have here : ((h.setChildren c (some k)).node c).children = some k :=
        congrArg Node.children (Nodes.set_node _ _ _)
      cases kids with
      | nil => cases here.symm.trans children
      | cons k' _ _ =>
          obtain rfl : k = k' := Option.some.inj (here.symm.trans children)
          have above := below.1.2.2.1
          have kept : (h.setChildren c (some k)).node k = h.node k := Nodes.set_other _ _ other
          rw [kept, linked.1.2.2.1] at above
          cases above

/-- A tree is copied as it should be if its first node has no children, and otherwise only if the copy
    is given up. -/
theorem treeClone_cloned {i : Nat} {kids rest : Forest}
    (linked : Linked w.nodes up prev (.cons i kids rest))
    (inside : ∀ j ∈ (Forest.cons i kids rest).ids, j < w.nodes.size) (bounded : w.Bounded)
    {fuel : Nat} (enough : kids.ids.length ≤ fuel) :
    Cloned w (.cons i kids .nil) (w.treeClone m fuel i) ↔
      (m.clones w.nodes i = true → m.cut w.nodes i = false ∧
        kids.broken (m.clones w.nodes) (m.cut w.nodes) = false) ∧
      (kids = .nil ∨ m.clones w.nodes i = false ∨ kids.refused (m.clones w.nodes) = true) := by
  obtain ⟨⟨_, _, _, children⟩, below, _⟩ := linked
  have inside_i := inside i (by simp)
  unfold Pool.treeClone
  rw [nodeClone_eq]
  by_cases can : m.clones w.nodes i = false
  · rw [if_pos can]
    exact iff_of_true (.inr ⟨rfl, Holds.refl w⟩)
      ⟨fun yes => Bool.noConfusion (can.symm.trans yes), .inr (.inl can)⟩
  · have can : m.clones w.nodes i = true := by simpa using can
    rw [if_neg (by simp [can])]
    by_cases cuts : m.cut w.nodes i = true
    · rw [if_pos cuts]
      exact iff_of_false (fun cloned => cloned) fun h => Bool.noConfusion ((h.1 can).1.symm.trans cuts)
    · have cuts : m.cut w.nodes i = false := by simpa using cuts
      rw [if_neg (by simp [cuts])]
      have holds := (Holds.refl w).born (w.nodes.node i)
      have single : (w.born (w.nodes.node i)).nodes.node w.nodes.size =
          Nodes.single (w.nodes.node i).ident (w.nodes.node i).value := Nodes.new_node _ _ _
      generalize w.born (w.nodes.node i) = w₁ at holds single
      generalize size : w.nodes.size = c at holds single inside_i
      rw [List.nil_append] at holds
      have node₁ : w₁.nodes.node i = w.nodes.node i := holds.old i (by omega)
      have inside_c : c < w₁.nodes.size := (holds.fresh c (by simp)).2
      simp only [node₁, children]
      cases kids with
      | nil =>
          refine iff_of_true (.inl ⟨.cons c .nil .nil, rfl, ?_, ?_, holds⟩)
            ⟨fun _ => ⟨cuts, rfl⟩, .inl rfl⟩
          · refine ⟨?_, trivial, trivial⟩
            rw [single]
            exact ⟨rfl, rfl, rfl, rfl⟩
          · refine ⟨?_, trivial, trivial⟩
            rw [single]
            exact ⟨rfl, rfl⟩
      | cons k below' others =>
          have source : ∀ j ∈ (Forest.cons k below' others).ids,
              j < w₁.nodes.size ∧ w₁.nodes.node j = w.nodes.node j := by
            intro j mem
            have old := inside j (List.mem_cons_of_mem i (List.mem_append_left _ mem))
            exact ⟨Nat.lt_of_lt_of_le old holds.grows, holds.old j old⟩
          have ends := listLoop_ends (m := m) (.cons k below' others) [] below source
            (holds.bounded bounded) (Holds.refl w₁) trivial enough
          simp only [Forest.head?, List.head?_nil, List.getLast?_nil, Pool.listClone] at ends ⊢
          cases run : w₁.listLoop m fuel (some k) none none with
          | stuck =>
              rw [run] at ends
              exact ends.elim
          | fault =>
              rw [run] at ends
              have broken : (Forest.cons k below' others).broken (m.clones w.nodes) (m.cut w.nodes) =
                true := ends
              exact iff_of_false (fun cloned => cloned) fun h =>
                Bool.noConfusion ((h.1 can).2.symm.trans broken)
          | done w₂ r =>
              rw [run] at ends
              obtain ⟨whole, ends⟩ := ends
              by_cases refused : (Forest.cons k below' others).refused (m.clones w.nodes) = true
              · rw [if_pos refused] at ends
                obtain ⟨rfl, holds₂⟩ := ends
                have gone := destroy_single holds single bounded holds₂
                exact iff_of_true (.inr ⟨rfl, gone⟩) ⟨fun _ => ⟨cuts, whole⟩, .inr (.inr refused)⟩
              · rw [if_neg refused] at ends
                obtain ⟨new, rfl, holds₂, linked₂, _, copies⟩ := ends
                rw [List.nil_append] at holds₂ linked₂ ⊢
                obtain ⟨k', new', rfl⟩ : ∃ k' new', new = k' :: new' := by
                  cases copies with
                  | cons _ _ => exact ⟨_, _, rfl⟩
                refine iff_of_false ?_ ?_
                · rintro (⟨g, first, linked', _, _⟩ | ⟨none, _⟩)
                  · have other : k' ≠ c := by
                      have := (holds₂.fresh k' (by simp)).1
                      omega
                    exact not_linked_children linked₂ other first linked'
                  · cases none
                · rintro ⟨_, nil | no | up⟩
                  · cases nil
                  · exact Bool.noConfusion (no.symm.trans can)
                  · exact refused up

/-- Copies of lists and of trees are complete or given up, as long as no identifier fails to be copied
    and no node that is copied has children. -/
theorem clones {i : Nat} {kids rest : Forest} (linked : Linked w.nodes up prev (.cons i kids rest))
    (inside : ∀ j ∈ (Forest.cons i kids rest).ids, j < w.nodes.size) (bounded : w.Bounded)
    {fuel : Nat} (enough : (Forest.cons i kids rest).ids.length ≤ fuel) :
    (Cloned w (.cons i kids rest) (w.listClone m fuel (some i)) ↔
      (Forest.cons i kids rest).broken (m.clones w.nodes) (m.cut w.nodes) = false ∧
        ((Forest.cons i kids rest).Flat ∨
          (Forest.cons i kids rest).refused (m.clones w.nodes) = true)) ∧
    (Cloned w (.cons i kids .nil) (w.treeClone m fuel i) ↔
      (m.clones w.nodes i = true → m.cut w.nodes i = false ∧
        kids.broken (m.clones w.nodes) (m.cut w.nodes) = false) ∧
      (kids = .nil ∨ m.clones w.nodes i = false ∨ kids.refused (m.clones w.nodes) = true)) := by
  refine ⟨listClone_cloned linked inside bounded enough, treeClone_cloned linked inside bounded ?_⟩
  simp only [Forest.ids_cons, List.length_cons, List.length_append] at enough
  omega

end Cloned

/-- All memory there is. -/
def plenty : Supply := ⟨fun _ => true, fun _ => true, fun _ => true⟩

/-- The node with two children, as the only nodes. -/
def pairPool : Pool := ⟨pair, fun i => decide (i < 3), 0, 0⟩

theorem pairPool_bounded : pairPool.Bounded := by
  intro i beyond
  exact decide_eq_false (Nat.not_lt.mpr beyond)

theorem clones_pair :
    (Cloned pairPool pairForest (pairPool.listClone plenty 3 (some 0)) ↔
      pairForest.broken (plenty.clones pair) (plenty.cut pair) = false ∧
        (pairForest.Flat ∨ pairForest.refused (plenty.clones pair) = true)) ∧
    (Cloned pairPool (.cons 0 (.cons 1 .nil (.cons 2 .nil .nil)) .nil) (pairPool.treeClone plenty 3 0) ↔
      (plenty.clones pair 0 = true → plenty.cut pair 0 = false ∧
        (Forest.cons 1 .nil (.cons 2 .nil .nil)).broken (plenty.clones pair) (plenty.cut pair) = false) ∧
      (Forest.cons 1 .nil (.cons 2 .nil .nil) = .nil ∨ plenty.clones pair 0 = false ∨
        (Forest.cons 1 .nil (.cons 2 .nil .nil)).refused (plenty.clones pair) = true)) :=
  @clones plenty pairPool none none 0 (.cons 1 .nil (.cons 2 .nil .nil)) .nil pair_linked (by decide)
    pairPool_bounded 3 (by decide)

/-- The children of a copied tree do not know their parent. -/
theorem treeClone_pair : ¬ ∀ (m : Supply) (w : Pool) (up prev : Option Nat) (i : Nat)
    (kids rest : Forest) (fuel : Nat), Linked w.nodes up prev (.cons i kids rest) →
      (∀ j ∈ (Forest.cons i kids rest).ids, j < w.nodes.size) → w.Bounded →
      (Forest.cons i kids rest).ids.length ≤ fuel →
      Cloned w (.cons i kids .nil) (w.treeClone m fuel i) := by
  intro all
  have cloned := all plenty pairPool none none 0 (.cons 1 .nil (.cons 2 .nil .nil)) .nil 3
    pair_linked (by decide) pairPool_bounded (by decide)
  have := (treeClone_cloned pair_linked (w := pairPool) (by decide) pairPool_bounded (by decide)).mp cloned
  revert this
  decide

end Mpt.Tree
