import Mpt.Tree.Forest
import Mpt.Tree.Move

/-! # New leaves, and forests that are cleared

A node without links becomes a leaf of the forest, whatever node of it the position
is.  Clearing a list destroys all nodes of its forest and no other, and a new parent is
set for the nodes on top and for no other.
-/

namespace Mpt.Tree

open Forest

variable {h h' : Nodes} {up prev : Option Nat} {f : Forest} {q n : Nat}

theorem tops_length_le (nodup : f.ids.Nodup) (below : ∀ i ∈ f.ids, i < h.size) :
    f.tops.length ≤ h.size :=
  length_le_of_below (nodup_tops nodup) fun i mem => below i (mem_ids_of_mem_tops mem)

/-- A leaf behind the last node of a list, from one of its nodes. -/
theorem Linked.gnodeAdd_top (l : Linked h up prev f) (nodup : f.ids.Nodup)
    (below : ∀ i ∈ f.ids, i < h.size) (fresh : n ∉ f.ids) (leaf : (h.node n).children = none)
    (mem : q ∈ f.tops) :
    Linked (h.gnodeAdd q n) up prev (f.append (.cons n .nil .nil)) ∧
      (∀ i, i ≠ n → i ∉ f.ids → (h.gnodeAdd q n).node i = h.node i) ∧
      (h.gnodeAdd q n).size = h.size := by
  obtain ⟨prev', rest, chain', part, end'⟩ := l.chain.from_mem mem
  obtain ⟨last, end_⟩ : ∃ last, f.tops.getLast? = some last := by
    cases end_ : f.tops.getLast? with
    | none =>
        rw [List.getLast?_eq_none_iff.mp end_] at mem
        cases mem
    | some last => exact ⟨last, rfl⟩
  have memL := mem_ids_of_mem_tops (List.mem_of_getLast? end_)
  have short := tops_length_le nodup below
  have fewer := part.length_le
  have last_eq : h.gnodeLast q = last := by
    refine lastLoop_chain chain' (end'.trans end_) ?_
    simp only [List.length_cons] at fewer
    omega
  have ne : n ≠ last := fun eq => fresh (eq ▸ memL)
  obtain ⟨new, old, same, size⟩ := h.gnodeAfter_last ne (l.chain.last end_)
  rw [Nodes.gnodeAdd, last_eq]
  refine ⟨l.extend end_ trivial ?_ old ?_ fun i mem ne_last => ?_, fun i ne_n out => ?_, size⟩
  · refine (List.Perm.nodup_iff List.perm_append_comm).mp ?_
    exact List.nodup_cons.mpr ⟨by simpa using fresh, by simpa using nodup⟩
  · rw [new]
    exact ⟨rfl, rfl, l.chain.parent (List.mem_of_getLast? end_), leaf⟩
  · simp only [ids_nil, List.append_nil] at mem
    refine same i ?_ ne_last
    rintro rfl
    exact fresh mem
  · refine same i ne_n ?_
    rintro rfl
    exact out memL

/-- How a forest grows by one leaf. -/
structure Grows (h' h : Nodes) (up prev : Option Nat) (f : Forest) (n : Nat) (f' : Forest) :
    Prop where
  linked : Linked h' up prev f'
  ids : f'.ids.Perm (n :: f.ids)
  head : ∀ i, f.head? = some i → f'.head? = some i
  same : ∀ i, i ≠ n → i ∉ f.ids → h'.node i = h.node i
  size : h'.size = h.size

namespace Grows

variable {i : Nat} {kids rest f' : Forest}

/-- The leaf is somewhere below the first node. -/
theorem below (l : Linked h up prev (.cons i kids rest)) (nodup : (Forest.cons i kids rest).ids.Nodup)
    (fresh : n ∉ (Forest.cons i kids rest).ids) (filled : kids.head? ≠ none)
    (g : Grows h' h (some i) none kids n f') :
    Grows h' h up prev (.cons i kids rest) n (.cons i f' rest) := by
  obtain ⟨⟨before, after, above, children⟩, _, more⟩ := l
  obtain ⟨absent, nodup⟩ := List.nodup_cons.mp nodup
  have disjoint := (List.nodup_append.mp nodup).2.2
  have ne : i ≠ n := fun eq => fresh (by simp [eq])
  have here := g.same i ne fun mem => absent (by simp [mem])
  obtain ⟨j, first⟩ := Option.ne_none_iff_exists'.mp filled
  refine ⟨⟨?_, g.linked, more.congr fun k mem => g.same k ?_ fun mem' =>
    disjoint k mem' k mem rfl⟩, ?_, fun j eq => eq, fun k ne out => g.same k ne fun mem =>
    out (by simp [mem]), g.size⟩
  · rw [here]
    exact ⟨before, after, above, by rw [children, first, g.head j first]⟩
  · rintro rfl
    exact fresh (by simp [mem])
  · refine (List.Perm.cons i (g.ids.append_right rest.ids)).trans ?_
    exact List.Perm.swap n i _

/-- The leaf is somewhere behind the first node. -/
theorem behind (l : Linked h up prev (.cons i kids rest)) (nodup : (Forest.cons i kids rest).ids.Nodup)
    (fresh : n ∉ (Forest.cons i kids rest).ids) (filled : rest.head? ≠ none)
    (g : Grows h' h up (some i) rest n f') :
    Grows h' h up prev (.cons i kids rest) n (.cons i kids f') := by
  obtain ⟨⟨before, after, above, children⟩, inside, _⟩ := l
  obtain ⟨absent, nodup⟩ := List.nodup_cons.mp nodup
  have disjoint := (List.nodup_append.mp nodup).2.2
  have ne : i ≠ n := fun eq => fresh (by simp [eq])
  have here := g.same i ne fun mem => absent (by simp [mem])
  obtain ⟨j, first⟩ := Option.ne_none_iff_exists'.mp filled
  refine ⟨⟨?_, inside.congr fun k mem => g.same k ?_ fun mem' => disjoint k mem k mem' rfl,
    g.linked⟩, ?_, fun j eq => eq, fun k ne out => g.same k ne fun mem => out (by simp [mem]),
    g.size⟩
  · rw [here]
    exact ⟨before, by rw [after, first, g.head j first], above, children⟩
  · rintro rfl
    exact fresh (by simp [mem])
  · refine (List.Perm.cons i ((g.ids.append_left kids.ids).trans List.perm_middle)).trans ?_
    exact List.Perm.swap n i _

end Grows

theorem head?_ne_none {i : Nat} (mem : i ∈ f.ids) : f.head? ≠ none := by
  cases f with
  | nil => cases mem
  | cons => exact nofun

theorem Linked.gnodeAdd (l : Linked h up prev f) (nodup : f.ids.Nodup)
    (below : ∀ i ∈ f.ids, i < h.size) (fresh : n ∉ f.ids) (leaf : (h.node n).children = none)
    (mem : q ∈ f.ids) : ∃ f', Grows (h.gnodeAdd q n) h up prev f n f' := by
  induction f generalizing up prev with
  | nil => cases mem
  | cons i kids rest ihk ihr =>
      by_cases top : q ∈ (Forest.cons i kids rest).tops
      · obtain ⟨linked, same, size⟩ := l.gnodeAdd_top nodup below fresh leaf top
        refine ⟨_, linked, ?_, fun j eq => eq, same, size⟩
        rw [ids_append]
        exact List.perm_append_comm
      · obtain ⟨_, nodup'⟩ := List.nodup_cons.mp nodup
        obtain ⟨nodupK, nodupR, _⟩ := List.nodup_append.mp nodup'
        have inside : q ∈ kids.ids ∨ q ∈ rest.ids := by
          simp only [ids_cons, List.mem_cons, List.mem_append] at mem
          refine mem.resolve_left ?_
          rintro rfl
          exact top (by simp)
        rcases inside with inside | inside
        · obtain ⟨f', g⟩ := ihk l.2.1 nodupK (fun j mem => below j (by simp [mem]))
            (fun mem => fresh (by simp [mem])) inside
          exact ⟨_, .below l nodup fresh (head?_ne_none inside) g⟩
        · obtain ⟨f', g⟩ := ihr l.2.2 nodupR (fun j mem => below j (by simp [mem]))
            (fun mem => fresh (by simp [mem])) inside
          exact ⟨_, .behind l nodup fresh (head?_ne_none inside) g⟩

/-- A leaf below a node of the forest. -/
theorem Linked.gnodeInsert (l : Linked h up prev f) (nodup : f.ids.Nodup)
    (below : ∀ i ∈ f.ids, i < h.size) (fresh : n ∉ f.ids)
    (leaf : (h.node n).children = none ∧ (h.node n).prev = none ∧ (h.node n).next = none)
    (mem : q ∈ f.ids) : ∃ f', Grows (h.gnodeInsert q n) h up prev f n f' := by
  induction f generalizing up prev with
  | nil => cases mem
  | cons i kids rest ihk ihr =>
      obtain ⟨absent, nodup'⟩ := List.nodup_cons.mp nodup
      obtain ⟨nodupK, nodupR, disjoint⟩ := List.nodup_append.mp nodup'
      by_cases here : q = i
      · subst here
        obtain ⟨⟨before, after, above, children⟩, inside, more⟩ := l
        cases kids with
        | nil =>
            have ne : n ≠ q := fun eq => fresh (by simp [eq])
            have node : ∀ j, j ≠ n → j ≠ q → (h.gnodeInsert q n).node j = h.node j := by
              intro j ne_n ne_q
              simp only [Nodes.gnodeInsert, children, Forest.head?, Nodes.set_other _ _ ne_n,
                Nodes.set_other _ _ ne_q]
            have new : (h.gnodeInsert q n).node n = { h.node n with parent := some q } := by
              simp only [Nodes.gnodeInsert, children, Forest.head?, Nodes.set_node,
                Nodes.set_other _ _ ne]
            have owner : (h.gnodeInsert q n).node q = { h.node q with children := some n } := by
              simp only [Nodes.gnodeInsert, children, Forest.head?, Nodes.set_node,
                Nodes.set_other _ _ ne.symm]
            refine ⟨.cons q (.cons n .nil .nil) rest, ⟨⟨?_, ⟨?_, trivial, trivial⟩,
              more.congr fun j later => node j ?_ ?_⟩, ?_, fun j eq => eq, fun j ne_n out =>
              node j ne_n fun eq => out (by simp [eq]), Nodes.gnodeInsert_size h q n⟩⟩
            · rw [owner]
              exact ⟨before, after, above, rfl⟩
            · rw [new]
              exact ⟨leaf.2.1, leaf.2.2, rfl, leaf.1⟩
            · rintro rfl
              exact fresh (by simp [later])
            · rintro rfl
              exact absent (by simp [later])
            · exact List.Perm.swap n q _
        | cons j ks r =>
            have first : h.gnodeInsert q n = h.gnodeAdd j n := by
              simp only [Nodes.gnodeInsert, children, Forest.head?]
            obtain ⟨f', g⟩ := inside.gnodeAdd nodupK (fun j mem => below j (by simp at mem ⊢; tauto))
              (fun mem => fresh (by simp at mem ⊢; tauto)) leaf.1 (show j ∈ _ by simp)
            rw [first]
            exact ⟨_, .below ⟨⟨before, after, above, children⟩, inside, more⟩ nodup fresh
              (by simp [Forest.head?]) g⟩
      · have inside : q ∈ kids.ids ∨ q ∈ rest.ids := by
          simp only [ids_cons, List.mem_cons, List.mem_append] at mem
          exact mem.resolve_left here
        rcases inside with inside | inside
        · obtain ⟨f', g⟩ := ihk l.2.1 nodupK (fun j mem => below j (by simp [mem]))
            (fun mem => fresh (by simp [mem])) inside
          exact ⟨_, .below l nodup fresh (head?_ne_none inside) g⟩
        · obtain ⟨f', g⟩ := ihr l.2.2 nodupR (fun j mem => below j (by simp [mem]))
            (fun mem => fresh (by simp [mem])) inside
          exact ⟨_, .behind l nodup fresh (head?_ne_none inside) g⟩

/-- The parent of a node of the forest is in it, or is the parent of all. -/
theorem Linked.parent_mem (l : Linked h up prev f) (mem : q ∈ f.ids) :
    (h.node q).parent = up ∨ ∃ p ∈ f.ids, (h.node q).parent = some p := by
  induction f generalizing up prev with
  | nil => cases mem
  | cons i kids rest ihk ihr =>
      obtain ⟨⟨_, _, above, _⟩, inside, more⟩ := l
      simp only [ids_cons, List.mem_cons, List.mem_append] at mem
      rcases mem with rfl | mem | mem
      · exact .inl above
      · rcases ihk inside mem with eq | ⟨p, mem', eq⟩
        · exact .inr ⟨i, by simp, eq⟩
        · exact .inr ⟨p, by simp [mem'], eq⟩
      · rcases ihr more mem with eq | ⟨p, mem', eq⟩
        · exact .inl eq
        · exact .inr ⟨p, by simp [mem'], eq⟩

theorem clearLoop_some (fuel : Nat) (h : Nodes) (i : Nat) :
    Nodes.clearLoop (fuel + 1) h (some i) =
      let isolated := h.set i { h.node i with next := none, prev := none, parent := none }
      let below := Nodes.clearLoop fuel isolated (isolated.node i).children
      let after := Nodes.clearLoop fuel (below.1.setChildren i none) (h.node i).next
      (after.1, below.2 ++ i :: after.2) := rfl

/-- Clearing destroys every node of a forest once. -/
theorem clearLoop_spec (l : Linked h up prev f) (nodup : f.ids.Nodup) {fuel : Nat}
    (enough : f.ids.length ≤ fuel) :
    ∃ h' gone, Nodes.clearLoop fuel h f.head? = (h', gone) ∧ gone.Perm f.ids ∧
      (∀ i, i ∉ f.ids → h'.node i = h.node i) ∧ h'.size = h.size := by
  induction f generalizing h up prev fuel with
  | nil =>
      refine ⟨h, [], ?_, List.Perm.nil, fun _ _ => rfl, rfl⟩
      cases fuel <;> rfl
  | cons i kids rest ihk ihr =>
      cases fuel with
      | zero => exact absurd enough (by simp)
      | succ fuel =>
          simp only [ids_cons, List.length_cons, List.length_append] at enough
          have enoughK : kids.ids.length ≤ fuel := by omega
          have enoughR : rest.ids.length ≤ fuel := by omega
          obtain ⟨⟨_, after, _, children⟩, inside, more⟩ := l
          obtain ⟨absent, nodup⟩ := List.nodup_cons.mp nodup
          obtain ⟨nodupK, nodupR, disjoint⟩ := List.nodup_append.mp nodup
          have other : ∀ j, j ∈ kids.ids ++ rest.ids → j ≠ i := by
            rintro j mem rfl
            exact absent mem
          generalize isolated :
            h.set i { h.node i with next := none, prev := none, parent := none } = h₀
          have here : (h₀.node i).children = kids.head? := by
            rw [← isolated, Nodes.set_node]
            exact children
          have same₀ : ∀ j, j ≠ i → h₀.node j = h.node j := by
            intro j ne
            rw [← isolated, Nodes.set_other _ _ ne]
          have size₀ : h₀.size = h.size := by
            rw [← isolated]
            rfl
          obtain ⟨h₁, gone₁, run₁, perm₁, same₁, size₁⟩ := ihk
            (inside.congr fun j mem => same₀ j (other j (List.mem_append_left _ mem))) nodupK enoughK
          have rest_same : ∀ j ∈ rest.ids, (h₁.setChildren i none).node j = h.node j := by
            intro j mem
            have ne := other j (List.mem_append_right _ mem)
            unfold Nodes.setChildren
            rw [Nodes.set_other _ _ ne, same₁ j fun mem' => disjoint j mem' j mem rfl, same₀ j ne]
          obtain ⟨h₂, gone₂, run₂, perm₂, same₂, size₂⟩ := ihr (more.congr rest_same) nodupR enoughR
          refine ⟨h₂, gone₁ ++ i :: gone₂, ?_, ?_, fun j out => ?_, ?_⟩
          · rw [Forest.head?, clearLoop_some]
            simp only [isolated, here, run₁, after, run₂]
          · exact (List.Perm.append perm₁ (List.Perm.cons i perm₂)).trans List.perm_middle
          · simp only [ids_cons, List.mem_cons, List.mem_append, not_or] at out
            unfold Nodes.setChildren at same₂
            rw [same₂ j out.2.2, Nodes.set_other _ _ out.1, same₁ j out.2.1, same₀ j out.1]
          · rw [size₂, ← size₀, ← size₁]
            rfl

theorem parentLoop_some (h : Nodes) (i parent move fuel : Nat) :
    h.parentLoop (some i) parent move (fuel + 1) =
      let h := h.set i { h.node i with parent := some parent }
      h.parentLoop (h.node i).next parent (move + 1) fuel := rfl

/-- All nodes of a list get the parent, and their lists stay as they are. -/
theorem parentLoop_spec (l : Linked h up prev f) (nodup : f.ids.Nodup) (parent move : Nat)
    {fuel : Nat} (enough : f.tops.length ≤ fuel) :
    ∃ h' move', Nodes.parentLoop h f.head? parent move fuel = (h', move') ∧
      Linked h' (some parent) prev f ∧ (∀ i, i ∉ f.tops → h'.node i = h.node i) ∧
      (∀ i, (h'.node i).ident = (h.node i).ident ∧ (h'.node i).value = (h.node i).value) ∧
      h'.size = h.size := by
  induction f generalizing h prev fuel move with
  | nil =>
      refine ⟨h, move, ?_, trivial, fun _ _ => rfl, fun _ => ⟨rfl, rfl⟩, rfl⟩
      cases fuel <;> rfl
  | cons i kids rest _ ih =>
      cases fuel with
      | zero => exact absurd enough (by simp)
      | succ fuel =>
          obtain ⟨⟨before, after, _, children⟩, inside, more⟩ := l
          obtain ⟨absent, nodup⟩ := List.nodup_cons.mp nodup
          obtain ⟨_, nodupR, disjoint⟩ := List.nodup_append.mp nodup
          generalize put : h.set i { h.node i with parent := some parent } = h₀
          have here : h₀.node i = { h.node i with parent := some parent } := by
            rw [← put, Nodes.set_node]
          have same₀ : ∀ j, j ≠ i → h₀.node j = h.node j := by
            intro j ne
            rw [← put, Nodes.set_other _ _ ne]
          have rest_same : ∀ j ∈ rest.ids, h₀.node j = h.node j := by
            intro j mem
            refine same₀ j ?_
            rintro rfl
            exact absent (List.mem_append_right _ mem)
          obtain ⟨h', move', run, linked, same, content, size⟩ := ih (more.congr rest_same) nodupR
            (move + 1) (by simpa using enough)
          have apart : i ∉ rest.tops := fun mem =>
            absent (List.mem_append_right _ (mem_ids_of_mem_tops mem))
          refine ⟨h', move', ?_, ⟨?_, inside.congr fun j mem => ?_, linked⟩, fun j out => ?_,
            fun j => ?_, ?_⟩
          · have next : (h₀.node i).next = rest.head? := by
              rw [here]
              exact after
            rw [Forest.head?, parentLoop_some]
            simp only
            rw [put, next]
            exact run
          · rw [same i apart, here]
            exact ⟨before, after, rfl, children⟩
          · rw [same j fun mem' => disjoint j mem j (mem_ids_of_mem_tops mem') rfl, same₀ j]
            rintro rfl
            exact absent (List.mem_append_left _ mem)
          · simp only [tops_cons, List.mem_cons, not_or] at out
            rw [same j out.2, same₀ j out.1]
          · rw [(content j).1, (content j).2]
            by_cases eq : j = i
            · rw [eq, here]
              exact ⟨rfl, rfl⟩
            · rw [same₀ j eq]
              exact ⟨rfl, rfl⟩
          · rw [size, ← put]
            rfl

end Mpt.Tree
