import Mpt.Tree.Links
import Mathlib.Logic.Equiv.Basic

/-! # Nodes that trade places

Two nodes exchange their children, or they exchange their places and take their children
with them.
-/

namespace Mpt.Tree

namespace Nodes

variable (h : Nodes)

/-- `mpt_gnode_swap` -/
def gnodeSwap (pri sec : Nat) : Nodes :=
  let pc := (h.node pri).children
  let sc := (h.node sec).children
  let h := h.setChildren sec pc
  let h := h.setChildren pri sc
  let h := (h.parentLoop pc sec 0 h.size).1
  (h.parentLoop sc pri 0 h.size).1

/-- A node gets a node behind it; when there is none, it gets a parent, and may be the first of
    its children. -/
def reassignNext (node old : Nat) (next parent : Option Nat) : Nodes :=
  let h := h.setNext node next
  match next with
  | some tmp => h.setPrev tmp (some node)
  | none =>
      let h := h.setParent node parent
      match parent with
      | some tmp => if (h.node tmp).children = some old then h.setChildren tmp (some node) else h
      | none => h

/-- A node gets a node before it. -/
def reassignPrev (node : Nat) (prev : Option Nat) : Nodes :=
  let h := h.setPrev node prev
  match prev with
  | some tmp => h.setNext tmp (some node)
  | none => h

/-- `mpt_gnode_switch` -/
def gnodeSwitch (pri sec : Nat) : Nodes :=
  -- save node pointers
  let parent := (h.node pri).parent
  let next := (h.node pri).next
  let prev := (h.node pri).prev
  -- reassign primary
  let h := h.reassignNext pri sec (h.node sec).next (h.node sec).parent
  let h := h.reassignPrev pri (h.node sec).prev
  -- reassign secondary
  let h := h.reassignNext sec pri next parent
  h.reassignPrev sec prev

section Fields

variable (i old j : Nat) (n p : Option Nat)

@[simp] theorem next_reassignNext : ((h.reassignNext i old n p).node j).next =
    if j = i then n else (h.node j).next := by
  cases n with
  | some t => simp [reassignNext]
  | none =>
      cases p with
      | none => simp [reassignNext]
      | some q =>
          by_cases first : (h.node q).children = some old
          · simp [reassignNext, first]
          · simp [reassignNext, first]

@[simp] theorem prev_reassignNext : ((h.reassignNext i old n p).node j).prev =
    if n = some j then some i else (h.node j).prev := by
  cases n with
  | some t => simp [reassignNext, eq_comm]
  | none =>
      cases p with
      | none => simp [reassignNext]
      | some q =>
          by_cases first : (h.node q).children = some old
          · simp [reassignNext, first]
          · simp [reassignNext, first]

@[simp] theorem parent_reassignNext : ((h.reassignNext i old n p).node j).parent =
    if n = none ∧ j = i then p else (h.node j).parent := by
  cases n with
  | some t => simp [reassignNext]
  | none =>
      cases p with
      | none => simp [reassignNext]
      | some q =>
          by_cases first : (h.node q).children = some old
          · simp [reassignNext, first]
          · simp [reassignNext, first]

@[simp] theorem children_reassignNext : ((h.reassignNext i old n p).node j).children =
    if n = none ∧ p = some j ∧ (h.node j).children = some old then some i
    else (h.node j).children := by
  cases n with
  | some t => simp [reassignNext]
  | none =>
      cases p with
      | none => simp [reassignNext]
      | some q =>
          by_cases first : (h.node q).children = some old
          · grind [reassignNext, children_setNext, children_setParent, children_setChildren]
          · grind [reassignNext, children_setNext, children_setParent, children_setChildren]

@[simp] theorem next_reassignPrev : ((h.reassignPrev i p).node j).next =
    if p = some j then some i else (h.node j).next := by
  cases p <;> simp [reassignPrev, eq_comm]

@[simp] theorem prev_reassignPrev : ((h.reassignPrev i p).node j).prev =
    if j = i then p else (h.node j).prev := by
  cases p <;> simp [reassignPrev]

@[simp] theorem parent_reassignPrev :
    ((h.reassignPrev i p).node j).parent = (h.node j).parent := by
  cases p <;> simp [reassignPrev]

@[simp] theorem children_reassignPrev :
    ((h.reassignPrev i p).node j).children = (h.node j).children := by
  cases p <;> simp [reassignPrev]

end Fields

end Nodes

/-- Two nodes of which none is the parent of the other one. -/
structure Beside (h : Nodes) (S : List Nat) (a b : Nat) : Prop where
  left : a ∈ S
  right : b ∈ S
  ne : a ≠ b
  below : (h.node a).parent ≠ some b
  above : (h.node b).parent ≠ some a

theorem Beside.symm {h : Nodes} {S : List Nat} {a b : Nat} (apart : Beside h S a b) : Beside h S b a where
  left := apart.right
  right := apart.left
  ne := apart.ne.symm
  below := apart.above
  above := apart.below

/-- The first node can take the place of the second one: they are not neighbours, and when another
    node follows there, then the parent is the same and does not know the second one. -/
def Fits (h : Nodes) (a b : Nat) : Prop :=
  (h.node a).next ≠ some b ∧
    ((h.node b).next ≠ none → (h.node a).parent = (h.node b).parent ∧
      ((h.node b).prev = none → (h.node b).parent = none))

/-- The links of a node after two of the nodes took each other's place. -/
structure Exchanged (h h' : Nodes) (a b i : Nat) : Prop where
  next : (h'.node i).next = ((h.node (Equiv.swap a b i)).next).map (Equiv.swap a b)
  prev : (h'.node i).prev = ((h.node (Equiv.swap a b i)).prev).map (Equiv.swap a b)
  parent : (h'.node i).parent = (h.node (Equiv.swap a b i)).parent
  children : (h'.node i).children =
    if i = a ∨ i = b then (h.node i).children else (h.node i).children.map (Equiv.swap a b)

section Switch

variable {h : Nodes} {S : List Nat} {a b : Nat}

/-- What `mpt_gnode_switch` writes, when no node is next to itself. -/
theorem next_gnodeSwitch (self : (h.node b).next ≠ some b) (j : Nat) :
    ((h.gnodeSwitch a b).node j).next =
      if (h.node a).prev = some j then some b else
      if j = b then (h.node a).next else
      if (h.node b).prev = some j then some a else
      if j = a then (h.node b).next else (h.node j).next := by
  simp [Nodes.gnodeSwitch, self]

theorem prev_gnodeSwitch (self : (h.node b).next ≠ some b) (j : Nat) :
    ((h.gnodeSwitch a b).node j).prev =
      if j = b then (h.node a).prev else
      if (h.node a).next = some j then some b else
      if j = a then (h.node b).prev else
      if (h.node b).next = some j then some a else (h.node j).prev := by
  simp [Nodes.gnodeSwitch, self]

theorem parent_gnodeSwitch (j : Nat) :
    ((h.gnodeSwitch a b).node j).parent =
      if (h.node a).next = none ∧ j = b then (h.node a).parent else
      if (h.node b).next = none ∧ j = a then (h.node b).parent else (h.node j).parent := by
  simp [Nodes.gnodeSwitch]

/-- The first child of a node after the first of the two was put in place. -/
def firstChild (h : Nodes) (a b j : Nat) : Option Nat :=
  if (h.node b).next = none ∧ (h.node b).parent = some j ∧ (h.node j).children = some b then some a
  else (h.node j).children

theorem children_gnodeSwitch (j : Nat) :
    ((h.gnodeSwitch a b).node j).children =
      if (h.node a).next = none ∧ (h.node a).parent = some j ∧ firstChild h a b j = some a then some b
      else firstChild h a b j := by
  simp [Nodes.gnodeSwitch, firstChild]

/-- Nodes that fit into each other's place get it. -/
theorem gnodeSwitch_exchanged (w : WellLinked h S) (apart : Beside h S a b) (fits : Fits h a b)
    (fits' : Fits h b a) {i : Nat} (mem : i ∈ S) : Exchanged h (h.gnodeSwitch a b) a b i := by
  have selfA := w.self a apart.left
  have selfB := w.self b apart.right
  have nextA := w.next a apart.left
  have nextB := w.next b apart.right
  have prevA := w.prev a apart.left
  have prevB := w.prev b apart.right
  have nextI := w.next i mem
  have prevI := w.prev i mem
  have ne := apart.ne
  obtain ⟨far, last⟩ := fits
  obtain ⟨far', last'⟩ := fits'
  constructor
  · rw [next_gnodeSwitch selfB.1]
    by_cases atA : i = a
    · subst i
      rw [Equiv.swap_apply_left]
      cases next : (h.node b).next <;> grind [Equiv.swap_apply_of_ne_of_ne]
    · by_cases atB : i = b
      · subst i
        rw [Equiv.swap_apply_right]
        cases next : (h.node a).next <;> grind [Equiv.swap_apply_of_ne_of_ne]
      · rw [Equiv.swap_apply_of_ne_of_ne atA atB]
        cases next : (h.node i).next <;> grind
  · rw [prev_gnodeSwitch selfB.1]
    by_cases atA : i = a
    · subst i
      rw [Equiv.swap_apply_left]
      cases prev : (h.node b).prev <;> grind [Equiv.swap_apply_of_ne_of_ne]
    · by_cases atB : i = b
      · subst i
        rw [Equiv.swap_apply_right]
        cases prev : (h.node a).prev <;> grind [Equiv.swap_apply_of_ne_of_ne]
      · rw [Equiv.swap_apply_of_ne_of_ne atA atB]
        cases prev : (h.node i).prev <;> grind
  · rw [parent_gnodeSwitch]
    by_cases atA : i = a
    · subst i
      rw [Equiv.swap_apply_left]
      grind
    · by_cases atB : i = b
      · subst i
        rw [Equiv.swap_apply_right]
        grind
      · rw [Equiv.swap_apply_of_ne_of_ne atA atB]
        grind
  · have childrenI := w.children i mem
    have unique := w.last a apart.left b apart.right
    have below := apart.below
    have above := apart.above
    rw [children_gnodeSwitch]
    cases children : (h.node i).children with
    | none => grind [firstChild]
    | some c => grind [firstChild]
/-- The content of the nodes stays. -/
theorem sameContent_reassignNext (h : Nodes) (i old : Nat) (n p : Option Nat) :
    SameContent h (h.reassignNext i old n p) := by
  have first := (SameContent.refl h).setNext i n
  cases n with
  | some t => exact first.setPrev t (some i)
  | none =>
      have second := first.setParent i p
      cases p with
      | none => exact second
      | some q =>
          simp only [Nodes.reassignNext]
          split
          · exact second.setChildren q (some i)
          · exact second

theorem sameContent_reassignPrev (h : Nodes) (i : Nat) (p : Option Nat) :
    SameContent h (h.reassignPrev i p) := by
  have first := (SameContent.refl h).setPrev i p
  cases p with
  | none => exact first
  | some t => exact first.setNext t (some i)

theorem sameContent_gnodeSwitch (h : Nodes) (a b : Nat) : SameContent h (h.gnodeSwitch a b) := by
  refine SameContent.trans ?_ (sameContent_reassignPrev _ b _)
  refine SameContent.trans ?_ (sameContent_reassignNext _ b a _ _)
  refine SameContent.trans ?_ (sameContent_reassignPrev _ a _)
  exact sameContent_reassignNext h a b _ _

@[simp] theorem size_reassignNext (h : Nodes) (i old : Nat) (n p : Option Nat) :
    (h.reassignNext i old n p).size = h.size := by
  cases n with
  | some t => rfl
  | none =>
      cases p with
      | none => rfl
      | some q =>
          simp only [Nodes.reassignNext]
          split <;> rfl

@[simp] theorem size_reassignPrev (h : Nodes) (i : Nat) (p : Option Nat) :
    (h.reassignPrev i p).size = h.size := by
  cases p <;> rfl

@[simp] theorem size_gnodeSwitch (h : Nodes) (a b : Nat) : (h.gnodeSwitch a b).size = h.size := by
  simp [Nodes.gnodeSwitch]

/-- Nodes with the same content and the same links. -/
theorem node_eq {n n' : Node} (content : n'.ident = n.ident ∧ n'.value = n.value)
    (links : SameLinks n n') : n' = n := by
  cases n
  cases n'
  obtain ⟨next, prev, parent, children⟩ := links
  simp_all

theorem nodes_eq {h h' : Nodes} (nodes : h'.node = h.node) (size : h'.size = h.size) : h' = h := by
  cases h
  cases h'
  simp_all

/-- Other nodes stay as they are. -/
theorem gnodeSwitch_other (w : WellLinked h S) (left : a ∈ S) (right : b ∈ S) {i : Nat}
    (out : i ∉ S) : (h.gnodeSwitch a b).node i = h.node i := by
  have self := (w.self b right).1
  have nextA := w.next a left i
  have nextB := w.next b right i
  have prevA := w.prev a left i
  have prevB := w.prev b right i
  have parentA := w.parent a left i
  have parentB := w.parent b right i
  refine node_eq (sameContent_gnodeSwitch h a b i) ⟨?_, ?_, ?_, ?_⟩
  · rw [next_gnodeSwitch self]
    grind
  · rw [prev_gnodeSwitch self]
    grind
  · rw [parent_gnodeSwitch]
    grind
  · rw [children_gnodeSwitch]
    grind [firstChild]

theorem map_swap_some {o : Option Nat} {j : Nat} (eq : o.map (Equiv.swap a b) = some j) :
    o = some (Equiv.swap a b j) := by
  cases o with
  | none => cases eq
  | some k => rw [← Option.some.inj eq, Equiv.swap_apply_self]

/-- Links that fit together do so after the exchange. -/
theorem WellLinked.exchanged {h' : Nodes} (w : WellLinked h S) (apart : Beside h S a b)
    (links : ∀ i ∈ S, Exchanged h h' a b i) : WellLinked h' S := by
  have left := apart.left
  have right := apart.right
  have inS {i : Nat} (mem : i ∈ S) : Equiv.swap a b i ∈ S := by grind
  have child {q c : Nat} (mem : q ∈ S) (eq : (h.node q).children = some c) (pair : q = a ∨ q = b) :
      Equiv.swap a b c = c := by
    obtain ⟨_, above, _⟩ := w.children q mem c eq
    have selfA := w.self a left
    have selfB := w.self b right
    have noA := apart.above
    have noB := apart.below
    grind
  constructor
  · intro i mem j next
    rw [(links i mem).next] at next
    obtain ⟨mem', before, above⟩ := w.next _ (inS mem) _ (map_swap_some next)
    have memJ : j ∈ S := by simpa using inS mem'
    refine ⟨memJ, ?_, ?_⟩
    · rw [(links j memJ).prev, before]
      simp
    · rw [(links j memJ).parent, (links i mem).parent, above]
  · intro i mem j before
    rw [(links i mem).prev] at before
    obtain ⟨mem', next⟩ := w.prev _ (inS mem) _ (map_swap_some before)
    have memJ : j ∈ S := by simpa using inS mem'
    refine ⟨memJ, ?_⟩
    rw [(links j memJ).next, next]
    simp
  · intro i mem j first
    rw [(links i mem).children] at first
    by_cases pair : i = a ∨ i = b
    · rw [if_pos pair] at first
      have fixed := child mem first pair
      obtain ⟨mem', above, none⟩ := w.children i mem j first
      rw [(links j mem').parent, (links j mem').prev, fixed, above, none]
      exact ⟨mem', rfl, rfl⟩
    · rw [if_neg pair] at first
      obtain ⟨mem', above, none⟩ := w.children i mem _ (map_swap_some first)
      have memJ : j ∈ S := by simpa using inS mem'
      rw [(links j memJ).parent, (links j memJ).prev, above, none]
      exact ⟨memJ, rfl, rfl⟩
  · intro i mem q above
    rw [(links i mem).parent] at above
    obtain ⟨mem', first⟩ := w.parent _ (inS mem) q above
    refine ⟨mem', fun none => ?_⟩
    rw [(links i mem).prev, Option.map_eq_none_iff] at none
    rw [(links q mem').children, first none]
    by_cases pair : q = a ∨ q = b
    · have fixed := child mem' (first none) pair
      rw [Equiv.swap_apply_self] at fixed
      rw [if_pos pair, ← fixed]
    · rw [if_neg pair]
      simp
  · intro i mem j mem' q above above' end_ end'
    rw [(links i mem).parent] at above
    rw [(links j mem').parent] at above'
    rw [(links i mem).next, Option.map_eq_none_iff] at end_
    rw [(links j mem').next, Option.map_eq_none_iff] at end'
    exact (Equiv.swap a b).injective (w.last _ (inS mem) _ (inS mem') q above above' end_ end')
  · intro i mem
    obtain ⟨next, above⟩ := w.self _ (inS mem)
    refine ⟨fun eq => next (map_swap_some ((links i mem).next ▸ eq)), ?_⟩
    rw [(links i mem).parent]
    have noA := apart.above
    have noB := apart.below
    grind

/-- Nodes that were exchanged fit into each other's place. -/
theorem Fits.exchanged {h' : Nodes} (apart : Beside h S a b) (fits : Fits h b a)
    (links : ∀ i ∈ S, Exchanged h h' a b i) : Fits h' a b := by
  have left := links a apart.left
  have right := links b apart.right
  obtain ⟨far, last⟩ := fits
  refine ⟨?_, ?_⟩
  · intro next
    rw [left.next, Equiv.swap_apply_left] at next
    have eq := map_swap_some next
    rw [Equiv.swap_apply_right] at eq
    exact far eq
  · rw [right.next, right.prev, right.parent, left.parent, Equiv.swap_apply_left, Equiv.swap_apply_right]
    simpa using last

theorem Exchanged.symm {h' : Nodes} {i : Nat} (links : Exchanged h h' a b i) : Exchanged h h' b a i where
  next := by rw [Equiv.swap_comm]; exact links.next
  prev := by rw [Equiv.swap_comm]; exact links.prev
  parent := by rw [Equiv.swap_comm]; exact links.parent
  children := by
    rw [links.children, Equiv.swap_comm]
    simp only [or_comm]

theorem Beside.exchanged {h' : Nodes} (w : WellLinked h S) (apart : Beside h S a b)
    (links : ∀ i ∈ S, Exchanged h h' a b i) : Beside h' S a b where
  left := apart.left
  right := apart.right
  ne := apart.ne
  below := by
    rw [(links a apart.left).parent, Equiv.swap_apply_left]
    exact (w.self b apart.right).2
  above := by
    rw [(links b apart.right).parent, Equiv.swap_apply_right]
    exact (w.self a apart.left).2

/-- After two exchanges a node has the links that it had. -/
theorem Exchanged.twice {h' h'' : Nodes} {i : Nat} (once : Exchanged h h' a b i)
    (here : Exchanged h h' a b (Equiv.swap a b i)) (again : Exchanged h' h'' a b i) :
    SameLinks (h.node i) (h''.node i) where
  next := by
    rw [again.next, here.next, Equiv.swap_apply_self]
    simp [Function.comp_def]
  prev := by
    rw [again.prev, here.prev, Equiv.swap_apply_self]
    simp [Function.comp_def]
  parent := by rw [again.parent, here.parent, Equiv.swap_apply_self]
  children := by
    rw [again.children, once.children]
    split
    · rfl
    · simp [Function.comp_def]

/-- Nodes that trade places twice are where they were. -/
theorem gnodeSwitch_twice (w : WellLinked h S) (apart : Beside h S a b) (fits : Fits h a b)
    (fits' : Fits h b a) : (h.gnodeSwitch a b).gnodeSwitch a b = h := by
  have links : ∀ i ∈ S, Exchanged h (h.gnodeSwitch a b) a b i := fun i mem =>
    gnodeSwitch_exchanged w apart fits fits' mem
  have w' := w.exchanged apart links
  have apart' := apart.exchanged w links
  have again : ∀ i ∈ S, Exchanged (h.gnodeSwitch a b) ((h.gnodeSwitch a b).gnodeSwitch a b) a b i :=
    fun i mem => gnodeSwitch_exchanged w' apart' (fits'.exchanged apart links)
      (fits.exchanged apart.symm fun i mem => (links i mem).symm) mem
  have nodes : ((h.gnodeSwitch a b).gnodeSwitch a b).node = h.node := by
    funext i
    by_cases mem : i ∈ S
    · have inside : Equiv.swap a b i ∈ S := by
        have left := apart.left
        have right := apart.right
        grind
      exact node_eq ((sameContent_gnodeSwitch h a b).trans (sameContent_gnodeSwitch _ a b) i)
        ((links i mem).twice (links _ inside) (again i mem))
    · rw [gnodeSwitch_other w' apart.left apart.right mem,
        gnodeSwitch_other w apart.left apart.right mem]
  exact nodes_eq nodes ((size_gnodeSwitch _ a b).trans (size_gnodeSwitch h a b))

end Switch

namespace Forest

/-- Two nodes trade places and take the nodes below them with them. -/
def exchange (f : Forest) (a : Nat) (ka : Forest) (b : Nat) (kb : Forest) : Forest :=
  match f with
  | nil => nil
  | cons i kids rest =>
      let rest := rest.exchange a ka b kb
      if i = a then cons b kb rest
      else if i = b then cons a ka rest
      else cons i (kids.exchange a ka b kb) rest

/-- Two nodes trade the nodes below them. -/
def exchangeKids (f : Forest) (a : Nat) (ka : Forest) (b : Nat) (kb : Forest) : Forest :=
  match f with
  | nil => nil
  | cons i kids rest =>
      let rest := rest.exchangeKids a ka b kb
      if i = a then cons a kb rest
      else if i = b then cons b ka rest
      else cons i (kids.exchangeKids a ka b kb) rest

variable (a : Nat) (ka : Forest) (b : Nat) (kb : Forest)

theorem head_exchange (f : Forest) :
    (f.exchange a ka b kb).head? = f.head?.map (Equiv.swap a b) := by
  cases f with
  | nil => rfl
  | cons i kids rest =>
      simp only [exchange]
      grind [head?]

theorem head_exchangeKids (f : Forest) : (f.exchangeKids a ka b kb).head? = f.head? := by
  cases f with
  | nil => rfl
  | cons i kids rest =>
      simp only [exchangeKids]
      grind [head?]

end Forest

section Places

variable {h h' : Nodes} {S : List Nat} {a b : Nat} {ka kb : Forest}

/-- A list without the two nodes stays as it is. -/
theorem Linked.exchanged_below {g : Forest} {up : Option Nat} (l : Linked h up none g)
    (inside : ∀ i ∈ g.ids, i ∈ S) (noA : a ∉ g.ids) (noB : b ∉ g.ids)
    (links : ∀ i ∈ S, Exchanged h h' a b i) : Linked h' up none g := by
  have fixed {i : Nat} (mem : i ∈ g.ids) : Equiv.swap a b i = i :=
    Equiv.swap_apply_of_ne_of_ne (fun eq => noA (eq ▸ mem)) fun eq => noB (eq ▸ mem)
  refine l.links fun i mem => ?_
  have here := links i (inside i mem)
  have keep {o : Option Nat} (part : ∀ j, o = some j → j ∈ g.ids) : o.map (Equiv.swap a b) = o := by
    cases o with
    | none => rfl
    | some j => rw [Option.map_some, fixed (part j rfl)]
  refine ⟨?_, ?_, ?_, ?_⟩
  · rw [here.next, fixed mem]
    exact keep fun j eq => (l.next_mem mem eq).1
  · rw [here.prev, fixed mem]
    refine keep fun j eq => ?_
    rcases l.prev_mem mem eq with ⟨_, none⟩ | ⟨part, _⟩
    · cases none
    · exact part
  · rw [here.parent, fixed mem]
  · rw [here.children, if_neg]
    · exact keep fun j eq => (l.children_mem mem eq).1
    · rintro (rfl | rfl)
      · exact noA mem
      · exact noB mem

/-- Two nodes with what is below them. -/
structure Kids (h : Nodes) (a : Nat) (ka : Forest) (b : Nat) (kb : Forest) : Prop where
  left : (h.node a).children = ka.head?
  right : (h.node b).children = kb.head?
  belowLeft : Linked h (some a) none ka
  belowRight : Linked h (some b) none kb

/-- The forest after an exchange. -/
theorem Linked.exchanged {f : Forest} {up prev : Option Nat} (l : Linked h up prev f)
    (kids : Kids h a ka b kb) (kids' : Linked h' (some a) none ka ∧ Linked h' (some b) none kb)
    (inside : ∀ i ∈ f.ids, i ∈ S) (left : a ∈ S) (right : b ∈ S)
    (links : ∀ i ∈ S, Exchanged h h' a b i) :
    Linked h' up (prev.map (Equiv.swap a b)) (f.exchange a ka b kb) := by
  induction f generalizing up prev with
  | nil => trivial
  | cons i below rest ihk ihr =>
      obtain ⟨⟨before, after, above, children⟩, linked, more⟩ := l
      have next := ihr more fun j mem => inside j (by simp [mem])
      have there {j : Nat} (mem : j ∈ S) (eq : Equiv.swap a b j = i) :
          (h'.node j).prev = prev.map (Equiv.swap a b) ∧
            (h'.node j).next = (rest.exchange a ka b kb).head? ∧ (h'.node j).parent = up := by
        rw [(links j mem).prev, (links j mem).next, (links j mem).parent, eq, before, after, above,
          Forest.head_exchange]
        exact ⟨rfl, rfl, rfl⟩
      simp only [Forest.exchange]
      by_cases atA : i = a
      · rw [if_pos atA]
        rw [atA] at next there
        obtain ⟨before', after', above'⟩ := there right (Equiv.swap_apply_right a b)
        refine ⟨⟨before', after', above', ?_⟩, kids'.2, ?_⟩
        · rw [(links b right).children, if_pos (.inr rfl)]
          exact kids.right
        · rw [Option.map_some, Equiv.swap_apply_left] at next
          exact next
      · rw [if_neg atA]
        by_cases atB : i = b
        · rw [if_pos atB]
          rw [atB] at next there
          obtain ⟨before', after', above'⟩ := there left (Equiv.swap_apply_left a b)
          refine ⟨⟨before', after', above', ?_⟩, kids'.1, ?_⟩
          · rw [(links a left).children, if_pos (.inl rfl)]
            exact kids.left
          · rw [Option.map_some, Equiv.swap_apply_right] at next
            exact next
        · have fixed := Equiv.swap_apply_of_ne_of_ne atA atB
          have memI : i ∈ S := inside i (by simp)
          obtain ⟨before', after', above'⟩ := there memI fixed
          rw [if_neg atB]
          refine ⟨⟨before', after', above', ?_⟩, ihk linked fun j mem => inside j (by simp [mem]), ?_⟩
          · rw [(links i memI).children, if_neg (not_or.mpr ⟨atA, atB⟩), children, Forest.head_exchange]
          · rw [Option.map_some, fixed] at next
            exact next

/-- What a forest after an exchange says about nodes that are not below the two. -/
theorem Linked.links_exchange {f : Forest} {up prev prev' : Option Nat} (l : Linked h up prev f)
    (l' : Linked h' up prev' (f.exchange a ka b kb)) (kids : Kids h a ka b kb)
    {i : Nat} (mem : i ∈ f.ids) (noA : i ∉ ka.ids) (noB : i ∉ kb.ids) :
    (h'.node (Equiv.swap a b i)).next = (h.node i).next.map (Equiv.swap a b) ∧
      (h'.node (Equiv.swap a b i)).parent = (h.node i).parent ∧
      (i ≠ a → i ≠ b → (h'.node i).children = (h.node i).children.map (Equiv.swap a b)) := by
  induction f generalizing up prev prev' with
  | nil => cases mem
  | cons k below rest ihk ihr =>
      obtain ⟨⟨_, after, above, children⟩, linked, more⟩ := l
      simp only [Forest.exchange] at l'
      simp only [Forest.ids_cons, List.mem_cons, List.mem_append] at mem
      by_cases atA : k = a
      · rw [if_pos atA] at l'
        obtain ⟨⟨_, after', above', _⟩, _, more'⟩ := l'
        rw [atA] at linked children after above
        obtain rfl : ka = below :=
          Linked.unique kids.belowLeft linked (kids.left.symm.trans children)
        rcases mem with rfl | mem | mem
        · rw [atA, Equiv.swap_apply_left, after', above', above, after, Forest.head_exchange]
          exact ⟨rfl, rfl, fun other => absurd rfl other⟩
        · exact absurd mem noA
        · exact ihr more more' mem
      · rw [if_neg atA] at l'
        by_cases atB : k = b
        · rw [if_pos atB] at l'
          obtain ⟨⟨_, after', above', _⟩, _, more'⟩ := l'
          rw [atB] at linked children after above
          obtain rfl : kb = below :=
            Linked.unique kids.belowRight linked (kids.right.symm.trans children)
          rcases mem with rfl | mem | mem
          · rw [atB, Equiv.swap_apply_right, after', above', above, after, Forest.head_exchange]
            exact ⟨rfl, rfl, fun _ other => absurd rfl other⟩
          · exact absurd mem noB
          · exact ihr more more' mem
        · rw [if_neg atB] at l'
          obtain ⟨⟨_, after', above', children'⟩, linked', more'⟩ := l'
          rcases mem with rfl | mem | mem
          · rw [Equiv.swap_apply_of_ne_of_ne atA atB, after', above', above, after, children',
              children, Forest.head_exchange, Forest.head_exchange]
            exact ⟨rfl, rfl, fun _ _ => rfl⟩
          · exact ihk linked linked' mem
          · exact ihr more more' mem

/-- The nodes have each other's children. -/
structure Swapped (h h' : Nodes) (a : Nat) (ka : Forest) (b : Nat) (kb : Forest) : Prop where
  left : h'.node a = { h.node a with children := kb.head? }
  right : h'.node b = { h.node b with children := ka.head? }
  belowLeft : Linked h' (some a) none kb
  belowRight : Linked h' (some b) none ka
  other : ∀ i, i ≠ a → i ≠ b → i ∉ ka.ids → i ∉ kb.ids → h'.node i = h.node i
  content : SameContent h h'
  size : h'.size = h.size

/-- Two nodes with lists of nodes below them that have nothing in common. -/
structure Parted (n a : Nat) (ka : Forest) (b : Nat) (kb : Forest) : Prop where
  nodup : (a :: ka.ids ++ b :: kb.ids).Nodup
  sized : ∀ i ∈ a :: ka.ids ++ b :: kb.ids, i < n

theorem Parted.symm {n : Nat} (parted : Parted n a ka b kb) : Parted n b kb a ka where
  nodup := (List.perm_append_comm.nodup_iff).mp parted.nodup
  sized := fun i mem => parted.sized i (List.perm_append_comm.mem_iff.mp mem)

theorem Parted.exchange {n : Nat} (parted : Parted n a ka b kb) : Parted n a kb b ka := by
  have perm : (a :: ka.ids ++ b :: kb.ids).Perm (a :: kb.ids ++ b :: ka.ids) := by
    grind
  exact ⟨perm.nodup_iff.mp parted.nodup, fun i mem => parted.sized i (perm.mem_iff.mpr mem)⟩

/-- `mpt_gnode_swap` exchanges the lists of children. -/
theorem gnodeSwap_swapped (kids : Kids h a ka b kb) (parted : Parted h.size a ka b kb) :
    Swapped h (h.gnodeSwap a b) a ka b kb := by
  obtain ⟨nodup, sized⟩ := parted
  have distinct := List.nodup_append.mp nodup
  obtain ⟨noAA, nodupA⟩ := List.nodup_cons.mp distinct.1
  obtain ⟨noBB, nodupB⟩ := List.nodup_cons.mp distinct.2.1
  have disjoint := distinct.2.2
  have ne : a ≠ b := disjoint a (by simp) b (by simp)
  have noAB : a ∉ kb.ids := fun mem => disjoint a (by simp) a (by simp [mem]) rfl
  have noBA : b ∉ ka.ids := fun mem => disjoint b (by simp [mem]) b (by simp) rfl
  have apart {i : Nat} (mem : i ∈ ka.ids) : i ∉ kb.ids := fun mem' =>
    disjoint i (by simp [mem]) i (by simp [mem']) rfl
  have enough (g : Forest) (nodup : g.ids.Nodup) (sized : ∀ i ∈ g.ids, i < h.size) :
      g.tops.length ≤ h.size :=
    length_le_of_below (Forest.nodup_tops nodup) fun i mem => sized i (Forest.mem_ids_of_mem_tops mem)
  generalize put : (h.setChildren b ka.head?).setChildren a kb.head? = h₀
  have left₀ : h₀.node a = { h.node a with children := kb.head? } := by
    rw [← put, Nodes.setChildren, Nodes.set_node, Nodes.setChildren, Nodes.set_other _ _ ne]
  have right₀ : h₀.node b = { h.node b with children := ka.head? } := by
    rw [← put, Nodes.setChildren, Nodes.set_other _ _ ne.symm, Nodes.setChildren, Nodes.set_node]
  have other₀ : ∀ i, i ≠ a → i ≠ b → h₀.node i = h.node i := fun i out out' => by
    rw [← put, Nodes.setChildren, Nodes.set_other _ _ out, Nodes.setChildren, Nodes.set_other _ _ out']
  have content₀ : SameContent h h₀ := by
    rw [← put]
    exact ((SameContent.refl h).setChildren b _).setChildren a _
  have size₀ : h₀.size = h.size := by rw [← put]; rfl
  -- the children of the first node
  have kaLinked : Linked h₀ (some a) none ka := kids.belowLeft.congr fun i mem =>
    other₀ i (fun eq => noAA (eq ▸ mem)) fun eq => noBA (eq ▸ mem)
  obtain ⟨h₁, _, run₁, kaLinked₁, same₁, content₁, size₁⟩ := parentLoop_spec kaLinked nodupA b 0
    (enough ka nodupA fun i mem => sized i (by simp [mem]))
  have out₁ {i : Nat} (out : i ∉ ka.ids) : h₁.node i = h₀.node i :=
    same₁ i fun mem => out (Forest.mem_ids_of_mem_tops mem)
  -- the children of the second node
  have kbLinked : Linked h₁ (some b) none kb := kids.belowRight.congr fun i mem => by
    rw [out₁ fun mem' => apart mem' mem]
    exact other₀ i (fun eq => noAB (eq ▸ mem)) fun eq => noBB (eq ▸ mem)
  obtain ⟨h₂, _, run₂, kbLinked₂, same₂, content₂, size₂⟩ := parentLoop_spec kbLinked nodupB a 0
    (enough kb nodupB fun i mem => sized i (by simp [mem]))
  have out₂ {i : Nat} (out : i ∉ kb.ids) : h₂.node i = h₁.node i :=
    same₂ i fun mem => out (Forest.mem_ids_of_mem_tops mem)
  have eq : h.gnodeSwap a b = h₂ := by
    simp only [Nodes.gnodeSwap, kids.left, kids.right, put]
    rw [size₀, run₁]
    simp only
    rw [size₁, size₀, run₂]
  rw [eq]
  refine ⟨?_, ?_, kbLinked₂, kaLinked₁.congr fun i mem => out₂ (apart mem), ?_, ?_, ?_⟩
  · rw [out₂ noAB, out₁ noAA, left₀]
  · rw [out₂ noBB, out₁ noBA, right₀]
  · intro i outA outB noA noB
    rw [out₂ noB, out₁ noA, other₀ i outA outB]
  · exact (content₀.trans content₁).trans content₂
  · rw [size₂, size₁, size₀]

/-- The forest after the nodes below two of its nodes changed places. -/
theorem Linked.swapped {f : Forest} {up prev : Option Nat} (l : Linked h up prev f)
    (kids : Kids h a ka b kb) (swapped : Swapped h h' a ka b kb)
    (out : ∀ q, up = some q → q ≠ a ∧ q ≠ b ∧ q ∉ ka.ids ∧ q ∉ kb.ids) :
    Linked h' up prev (f.exchangeKids a ka b kb) := by
  induction f generalizing up prev with
  | nil => trivial
  | cons i below rest ihk ihr =>
      obtain ⟨⟨before, after, above, children⟩, linked, more⟩ := l
      have next := ihr more out
      simp only [Forest.exchangeKids]
      by_cases atA : i = a
      · rw [if_pos atA]
        rw [atA] at before after above next
        refine ⟨?_, swapped.belowLeft, next⟩
        rw [swapped.left, Forest.head_exchangeKids]
        exact ⟨before, after, above, rfl⟩
      · rw [if_neg atA]
        by_cases atB : i = b
        · rw [if_pos atB]
          rw [atB] at before after above next
          refine ⟨?_, swapped.belowRight, next⟩
          rw [swapped.right, Forest.head_exchangeKids]
          exact ⟨before, after, above, rfl⟩
        · rw [if_neg atB]
          -- a node below one of the two would have a parent there
          have noA : i ∉ ka.ids := fun mem => by
            rcases kids.belowLeft.place mem with ⟨_, eq⟩ | ⟨q, inside, _, _, _, _, eq⟩
            · exact (out a (above.symm.trans eq)).1 rfl
            · exact (out q (above.symm.trans eq)).2.2.1 inside
          have noB : i ∉ kb.ids := fun mem => by
            rcases kids.belowRight.place mem with ⟨_, eq⟩ | ⟨q, inside, _, _, _, _, eq⟩
            · exact (out b (above.symm.trans eq)).2.1 rfl
            · exact (out q (above.symm.trans eq)).2.2.2 inside
          refine ⟨?_, ihk linked fun q eq => ?_, next⟩
          · rw [swapped.other i atA atB noA noB, Forest.head_exchangeKids, Forest.head_exchangeKids]
            exact ⟨before, after, above, children⟩
          · obtain rfl : i = q := Option.some.inj eq
            exact ⟨atA, atB, noA, noB⟩

/-- Nodes that exchange their children twice have those they had. -/
theorem gnodeSwap_twice (kids : Kids h a ka b kb) (parted : Parted h.size a ka b kb) :
    (h.gnodeSwap a b).gnodeSwap a b = h := by
  have once := gnodeSwap_swapped kids parted
  have kids' : Kids (h.gnodeSwap a b) a kb b ka :=
    ⟨by rw [once.left], by rw [once.right], once.belowLeft, once.belowRight⟩
  have again := gnodeSwap_swapped kids' (once.size ▸ parted.exchange)
  have content := once.content.trans again.content
  refine nodes_eq (funext fun i => ?_) (again.size.trans once.size)
  by_cases atA : i = a
  · rw [atA, again.left, once.left]
    simp [← kids.left]
  · by_cases atB : i = b
    · rw [atB, again.right, once.right]
      simp [← kids.right]
    · by_cases memA : i ∈ ka.ids
      · exact node_eq (content i) (kids.belowLeft.same again.belowLeft memA)
      · by_cases memB : i ∈ kb.ids
        · exact node_eq (content i) (kids.belowRight.same again.belowRight memB)
        · rw [again.other i atA atB memB memA, once.other i atA atB memA memB]

/-- The nodes of some forests. -/
abbrev allIds (fs : List Forest) : List Nat := fs.flatMap Forest.ids

/-- `mpt_gnode_swap` exchanges the lists of children, all else stays, and twice is the same as
    not at all. -/
structure Swaps (h : Nodes) (fs : List Forest) (a : Nat) (ka : Forest) (b : Nat) (kb : Forest) :
    Prop where
  linked : ∀ f ∈ fs, Linked (h.gnodeSwap a b) none none (f.exchangeKids a ka b kb)
  other : ∀ i, i ∉ allIds fs → (h.gnodeSwap a b).node i = h.node i
  content : SameContent h (h.gnodeSwap a b)
  twice : (h.gnodeSwap a b).gnodeSwap a b = h

/-- `mpt_gnode_switch` exchanges the places of the nodes and of those below them, all else stays, and
    twice is the same as not at all. -/
structure Switches (h : Nodes) (fs : List Forest) (a : Nat) (ka : Forest) (b : Nat) (kb : Forest) :
    Prop where
  linked : ∀ f ∈ fs, Linked (h.gnodeSwitch a b) none none (f.exchange a ka b kb)
  other : ∀ i, i ∉ allIds fs → (h.gnodeSwitch a b).node i = h.node i
  content : SameContent h (h.gnodeSwitch a b)
  twice : (h.gnodeSwitch a b).gnodeSwitch a b = h

/-- Two nodes of a well formed set of forests of which none is an ancestor of the other one, with the
    forests below them. -/
structure Unrelated (h : Nodes) (fs : List Forest) (a : Nat) (ka : Forest) (b : Nat) (kb : Forest) :
    Prop where
  linked : ∀ f ∈ fs, Linked h none none f
  nodup : (allIds fs).Nodup
  sized : ∀ i ∈ allIds fs, i < h.size
  left : a ∈ allIds fs
  right : b ∈ allIds fs
  ne : a ≠ b
  kids : Kids h a ka b kb
  below : a ∉ kb.ids
  above : b ∉ ka.ids

variable {fs : List Forest}

theorem Kids.symm (kids : Kids h a ka b kb) : Kids h b kb a ka :=
  ⟨kids.right, kids.left, kids.belowRight, kids.belowLeft⟩

namespace Unrelated

theorem symm (u : Unrelated h fs a ka b kb) : Unrelated h fs b kb a ka where
  linked := u.linked
  nodup := u.nodup
  sized := u.sized
  left := u.right
  right := u.left
  ne := u.ne.symm
  kids := u.kids.symm
  below := u.above
  above := u.below

/-- What is below the first node is part of the forests. -/
theorem part (u : Unrelated h fs a ka b kb) : List.Sublist (a :: ka.ids) (allIds fs) := by
  obtain ⟨f, inside, mem⟩ := List.mem_flatMap.mp u.left
  have sub := (u.linked f inside).below mem u.kids.left u.kids.belowLeft
  obtain ⟨front, back, eq⟩ := List.append_of_mem inside
  rw [eq, allIds, List.flatMap_append, List.flatMap_cons]
  exact (sub.trans (List.sublist_append_left _ _)).trans (List.sublist_append_right _ _)

theorem parted (u : Unrelated h fs a ka b kb) : Parted h.size a ka b kb := by
  have partA := u.part
  have partB := u.symm.part
  refine ⟨List.nodup_append.mpr ⟨partA.nodup u.nodup, partB.nodup u.nodup, ?_⟩, fun i mem => ?_⟩
  · rintro x memA _ memB rfl
    rcases List.mem_cons.mp memA with rfl | memA
    · rcases List.mem_cons.mp memB with same | memB
      · exact u.ne same
      · exact u.below memB
    · rcases List.mem_cons.mp memB with rfl | memB
      · exact u.above memA
      · rcases u.kids.belowLeft.meet u.kids.belowRight memA memB with inside | same | inside
        · exact u.below inside
        · exact u.ne same
        · exact u.above inside
  · rcases List.mem_append.mp mem with mem | mem
    · exact u.sized i (partA.subset mem)
    · exact u.sized i (partB.subset mem)

/-- The parent of a node that is not below the first one is not there either. -/
theorem parent_out (u : Unrelated h fs a ka b kb) {i q : Nat} (mem : i ∈ allIds fs)
    (above : (h.node i).parent = some q) (out : i ∉ ka.ids) : q ∉ ka.ids := by
  intro inside
  obtain ⟨f, memF, mem⟩ := List.mem_flatMap.mp mem
  rcases (u.linked f memF).place mem with ⟨_, none⟩ | ⟨p, _, g, children, linked, top, eq⟩
  · rw [above] at none
    cases none
  · obtain rfl : q = p := Option.some.inj (above.symm.trans eq)
    have part := u.kids.belowLeft.below inside children linked
    exact out (part.subset (List.mem_cons_of_mem q (Forest.mem_ids_of_mem_tops top)))

theorem parent_ne (u : Unrelated h fs a ka b kb) : (h.node a).parent ≠ some b := by
  intro above
  obtain ⟨f, inside, mem⟩ := List.mem_flatMap.mp u.left
  rcases (u.linked f inside).place mem with ⟨_, none⟩ | ⟨p, _, g, children, linked, top, eq⟩
  · rw [above] at none
    cases none
  · obtain rfl : b = p := Option.some.inj (above.symm.trans eq)
    obtain rfl : kb = g :=
      Linked.unique u.kids.belowRight linked (u.kids.right.symm.trans children)
    exact u.below (Forest.mem_ids_of_mem_tops top)

theorem apart (u : Unrelated h fs a ka b kb) : Beside h (allIds fs) a b :=
  ⟨u.left, u.right, u.ne, u.parent_ne, u.symm.parent_ne⟩

theorem swaps (u : Unrelated h fs a ka b kb) : Swaps h fs a ka b kb := by
  have swapped := gnodeSwap_swapped u.kids u.parted
  refine ⟨fun f inside => ?_, fun i out => ?_, swapped.content, gnodeSwap_twice u.kids u.parted⟩
  · refine (u.linked f inside).swapped u.kids swapped fun q eq => ?_
    cases eq
  · have partA : i ∉ a :: ka.ids := fun mem => out (u.part.subset mem)
    have partB : i ∉ b :: kb.ids := fun mem => out (u.symm.part.subset mem)
    rw [List.mem_cons, not_or] at partA partB
    exact swapped.other i partA.1 partB.1 partA.2 partB.2

/-- Nodes that fit into each other's place trade places. -/
theorem switches (u : Unrelated h fs a ka b kb) (fits : Fits h a b) (fits' : Fits h b a) :
    Switches h fs a ka b kb := by
  have w := wellLinked u.linked u.nodup
  have links : ∀ i ∈ allIds fs, Exchanged h (h.gnodeSwitch a b) a b i := fun i mem =>
    gnodeSwitch_exchanged w u.apart fits fits' mem
  obtain ⟨noA, _⟩ := List.nodup_cons.mp (u.part.nodup u.nodup)
  obtain ⟨noB, _⟩ := List.nodup_cons.mp (u.symm.part.nodup u.nodup)
  have insideA : ∀ i ∈ ka.ids, i ∈ allIds fs := fun i mem => u.part.subset (List.mem_cons_of_mem a mem)
  have insideB : ∀ i ∈ kb.ids, i ∈ allIds fs := fun i mem =>
    u.symm.part.subset (List.mem_cons_of_mem b mem)
  refine ⟨fun f inside => ?_, fun i out => gnodeSwitch_other w u.left u.right out,
    sameContent_gnodeSwitch h a b, gnodeSwitch_twice w u.apart fits fits'⟩
  exact (u.linked f inside).exchanged u.kids
    ⟨u.kids.belowLeft.exchanged_below insideA noA u.above links,
      u.kids.belowRight.exchanged_below insideB u.below noB links⟩
    (fun i mem => List.mem_flatMap.mpr ⟨f, inside, mem⟩) u.left u.right links

/-- Only nodes that fit into each other's place trade places. -/
theorem fits (u : Unrelated h fs a ka b kb)
    (linked : ∀ f ∈ fs, Linked (h.gnodeSwitch a b) none none (f.exchange a ka b kb)) :
    Fits h a b ∧ Fits h b a := by
  have w := wellLinked u.linked u.nodup
  have noA : a ∉ ka.ids := (List.nodup_cons.mp (u.part.nodup u.nodup)).1
  have noB : b ∉ kb.ids := (List.nodup_cons.mp (u.symm.part.nodup u.nodup)).1
  have facts : ∀ i ∈ allIds fs, i ∉ ka.ids → i ∉ kb.ids →
      ((h.gnodeSwitch a b).node (Equiv.swap a b i)).next = (h.node i).next.map (Equiv.swap a b) ∧
        ((h.gnodeSwitch a b).node (Equiv.swap a b i)).parent = (h.node i).parent ∧
        (i ≠ a → i ≠ b →
          ((h.gnodeSwitch a b).node i).children = (h.node i).children.map (Equiv.swap a b)) := by
    intro i mem out out'
    obtain ⟨f, inside, mem⟩ := List.mem_flatMap.mp mem
    exact (u.linked f inside).links_exchange (linked f inside) u.kids mem out out'
  -- the parent of a node is no part of what is moved
  have parent {i : Nat} (mem : i ∈ allIds fs) (out : i ∉ ka.ids) (out' : i ∉ kb.ids) {q : Nat}
      (above : (h.node i).parent = some q) (noLeft : q ≠ a) (noRight : q ≠ b) :
      ((h.gnodeSwitch a b).node q).children = (h.node q).children.map (Equiv.swap a b) :=
    (facts q (w.parent i mem q above).1 (u.parent_out mem above out)
      (u.symm.parent_out mem above out')).2.2 noLeft noRight
  have left := facts a u.left noA u.below
  have right := facts b u.right u.above noB
  have parentA := fun q => parent (q := q) u.left noA u.below
  have parentB := fun q => parent (q := q) u.right u.above noB
  rw [Equiv.swap_apply_left] at left
  rw [Equiv.swap_apply_right] at right
  obtain ⟨nextB, aboveB, _⟩ := left
  obtain ⟨nextA, aboveA, _⟩ := right
  have ne := u.ne
  have selfA := w.self a u.left
  have selfB := w.self b u.right
  have linkA := w.next a u.left
  have linkB := w.next b u.right
  have upA := w.parent a u.left
  have upB := w.parent b u.right
  have below := u.parent_ne
  have above := u.symm.parent_ne
  rw [next_gnodeSwitch selfB.1] at nextA nextB
  rw [parent_gnodeSwitch] at aboveA aboveB
  simp only [children_gnodeSwitch, firstChild] at parentA parentB
  refine ⟨⟨?_, fun more => ⟨?_, fun first => ?_⟩⟩, ⟨?_, fun more => ⟨?_, fun first => ?_⟩⟩⟩
  · -- the second one is not behind the first one
    intro next
    have before := (linkA b next).2.1
    cases eq : (h.node b).next <;> grind
  · grind
  · cases eq : (h.node b).parent with
    | none => rfl
    | some q => 
        have children := parentB q eq
        grind
  · intro next
    have before := (linkB a next).2.1
    cases eq : (h.node a).next <;> grind
  · grind
  · cases eq : (h.node a).parent with
    | none => rfl
    | some q => 
        have children := parentA q eq
        grind

end Unrelated
/-- Exchanging children does what it is there for.  Exchanging places does so exactly for nodes that
    fit into each other's place. -/
theorem exchanges (u : Unrelated h fs a ka b kb) :
    Swaps h fs a ka b kb ∧ (Switches h fs a ka b kb ↔ Fits h a b ∧ Fits h b a) :=
  ⟨u.swaps, fun switches => u.fits switches.linked, fun fits => u.switches fits.1 fits.2⟩

/-- Two nodes with one child each. -/
def twins : Nodes where
  node
    | 0 => { Nodes.single [] none with children := some 2 }
    | 1 => { Nodes.single [] none with children := some 3 }
    | 2 => { Nodes.single [] none with parent := some 0 }
    | 3 => { Nodes.single [] none with parent := some 1 }
    | _ => Nodes.single [] none
  size := 4

/-- The forests of these nodes. -/
def twinForests : List Forest :=
  [.cons 0 (.cons 2 .nil .nil) .nil, .cons 1 (.cons 3 .nil .nil) .nil]

theorem twins_unrelated : Unrelated twins twinForests 2 .nil 3 .nil where
  linked := by simp [twinForests, Linked, twins, Nodes.single, Forest.head?]
  nodup := by decide
  sized := by decide
  left := by decide
  right := by decide
  ne := by decide
  kids := ⟨rfl, rfl, trivial, trivial⟩
  below := by decide
  above := by decide

/-- The only children of two nodes trade places. -/
theorem exchanges_twins :
    Swaps twins twinForests 2 .nil 3 .nil ∧
      (Switches twins twinForests 2 .nil 3 .nil ↔ Fits twins 2 3 ∧ Fits twins 3 2) ∧
      Fits twins 2 3 ∧ Fits twins 3 2 := by
  obtain ⟨swaps, switches⟩ := exchanges twins_unrelated
  exact ⟨swaps, switches, by simp [Fits, twins, Nodes.single], by simp [Fits, twins, Nodes.single]⟩

/-- The two children of one node do not. -/
theorem gnodeSwitch_pair : ¬ ∀ (h : Nodes) (fs : List Forest) (a b : Nat) (ka kb : Forest),
    Unrelated h fs a ka b kb → Swaps h fs a ka b kb ∧ Switches h fs a ka b kb := by
  intro claim
  have u : Unrelated pair [pairForest] 1 .nil 2 .nil :=
    { linked := by simp [pair_linked]
      nodup := by decide
      sized := by decide
      left := by decide
      right := by decide
      ne := by decide
      kids := ⟨rfl, rfl, trivial, trivial⟩
      below := by decide
      above := by decide }
  obtain ⟨_, switches⟩ := claim pair [pairForest] 1 2 .nil .nil u
  exact (u.fits switches.linked).1.1 rfl

end Places

end Mpt.Tree
