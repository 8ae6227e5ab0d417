import Mpt.Parse.ReadBack
import Mpt.Parse.Outline
import Mpt.Tree.Clone

/-! # The tree of a text

`mpt_parse_node` makes a node of every element that is found.  So the nodes for a text are
linked as its sections are, and a text of a tree becomes this tree.
-/

namespace Mpt.Parse

open Config (Path)
open Config.Path (Holds)
open Mpt.Tree

/-- The tree under construction, with what its requests for memory are granted. -/
structure Appended where
  nodes : Nodes
  pos : Nat
  memory : Nat → Grant

/-- `saveAppend` -/
def saveAppend (x : Appended) (c : Call) : Option Appended :=
  match nodeAppend x.nodes x.pos c.path c.val c.prev c.event.flags (x.memory 0) with
  | (_, none) => none
  | (h, some next) => some ⟨h, next, fun n => x.memory (n + 1)⟩

/-- A call as an event with what comes with it. -/
def Call.step (c : Call) (grant : Grant) : Step := ⟨c.event, c.path, c.val.getD [], grant⟩

/-- The calls of a run as events. -/
def stepsOf : List Call → (Nat → Grant) → List Step
  | [], _ => []
  | c :: cs, memory => c.step (memory 0) :: stepsOf cs fun n => memory (n + 1)

/-- There is a value if and only if the event has one. -/
def Call.Fits (c : Call) : Prop := c.val.isSome = has c.event.flags Event.data.flags

variable {b b' : Build} {c : Call} {memory : Nat → Grant} {els : List (List Byte)} {prev : Nat}
  {cs : List Call} {ret : Int}

theorem events_stepsOf (cs : List Call) (memory : Nat → Grant) :
    events (stepsOf cs memory) = cs.map Call.event := by
  induction cs generalizing memory with
  | nil => rfl
  | cons c cs ih => exact congrArg (c.event :: ·) (ih _)

theorem step_value (fits : c.Fits) (grant : Grant) : (c.step grant).value = c.val := by
  unfold Call.Fits at fits
  unfold Step.value Call.step
  dsimp only
  rw [← fits]
  cases c.val <;> rfl

/-- Of the flags of the operation before, those of its kind count. -/
theorem nodeAppend_prev (h : Nodes) (old : Nat) (dest : Path) (val : Option (List Byte))
    {p q : Nat} (kind : p % 4 = q % 4) (some_ : 0 < p) (some_' : 0 < q) (currop : Nat) (grant : Grant) :
    nodeAppend h old dest val p currop grant = nodeAppend h old dest val q currop grant := by
  have bit (n : Nat) : n &&& 2 = n % 4 &&& 2 := by
    have low : (n &&& 2) % 2 ^ 2 = n % 2 ^ 2 &&& 2 % 2 ^ 2 := Nat.and_mod_two_pow
    have small : n &&& 2 ≤ 2 := Nat.and_le_right
    rw [Nat.mod_eq_of_lt (by omega)] at low
    exact low
  have same : has p Event.sectEnd.flags = has q Event.sectEnd.flags := by
    unfold has Event.flags
    rw [bit p, bit q, kind]
  unfold nodeAppend
  rw [same]
  simp only [ne_eq, Nat.ne_of_gt some_, Nat.ne_of_gt some_', not_false_eq_true, true_and]

/-- A call is handed on as its event is. -/
theorem saveAppend_step (kind : c.prev % 4 = b.prev % 4) (some_ : 0 < c.prev) (some_' : 0 < b.prev)
    (fits : c.Fits) : saveAppend ⟨b.nodes, b.pos, memory⟩ c =
      (b.save (c.step (memory 0))).map fun b' => ⟨b'.nodes, b'.pos, fun n => memory (n + 1)⟩ := by
  unfold saveAppend Build.save
  dsimp only
  rw [step_value fits, nodeAppend_prev b.nodes b.pos c.path c.val kind some_ some_']
  dsimp only [Call.step]
  generalize nodeAppend b.nodes b.pos c.path c.val b.prev c.event.flags (memory 0) = r
  obtain ⟨h, _ | next⟩ := r <;> rfl

theorem save_prev {s : Step} (saved : b.save s = some b') : b'.prev = s.event.flags := by
  obtain ⟨_, _, _, prev⟩ := save_eq saved
  exact prev

theorem flags_pos (e : Event) : 0 < e.flags := by
  cases e <;> decide

/-- The first of nested calls, and those behind it. -/
theorem Traced.head (h : Traced els prev (c :: cs) ret) : c.prev % 4 = prev ∧ 0 < c.prev ∧ c.Fits ∧
    ∃ els', Traced els' (c.event.flags % 4) cs ret := by
  obtain ⟨kind, some_, rest⟩ := h
  refine ⟨kind, some_, ?_⟩
  unfold Call.Fits
  generalize c.event = e at rest
  cases e with
  | section_ =>
      obtain ⟨n, _, _, val, more⟩ := rest
      exact ⟨by rw [val]; rfl, _, more⟩
  | option =>
      obtain ⟨n, _, _, val, more⟩ := rest
      exact ⟨by rw [val]; rfl, _, more⟩
  | optionData =>
      obtain ⟨n, _, v, _, val, _, more⟩ := rest
      exact ⟨by rw [val]; rfl, _, more⟩
  | data =>
      obtain ⟨_, v, _, val, _, more⟩ := rest
      exact ⟨by rw [val]; rfl, _, more⟩
  | sectEnd =>
      obtain ⟨_, _, val, _, more⟩ := rest
      exact ⟨by rw [val]; rfl, _, more⟩

/-- Without an error the calls are bracketed. -/
theorem Traced.bracketed (h : Traced els prev cs ret) (good : 0 ≤ ret) :
    Bracketed els.length (cs.map Call.event) := by
  induction cs generalizing els prev with
  | nil => trivial
  | cons c cs ih =>
      obtain ⟨_, _, rest⟩ := h
      rw [List.map_cons]
      generalize c.event = e at rest
      cases e with
      | section_ =>
          obtain ⟨n, _, _, _, more⟩ := rest
          have inner := ih more
          rw [List.length_append] at inner
          exact inner
      | option =>
          obtain ⟨n, _, _, _, more⟩ := rest
          exact ih more
      | optionData =>
          obtain ⟨n, _, v, _, _, _, more⟩ := rest
          exact ih more
      | data =>
          obtain ⟨_, v, _, _, _, more⟩ := rest
          exact ih more
      | sectEnd =>
          obtain ⟨_, _, _, open_, more⟩ := rest
          have inner := ih more
          rw [List.length_dropLast] at inner
          refine ⟨List.length_pos_iff.mpr fun none => ?_, inner⟩
          rw [(open_ none).2] at good
          exact absurd good (by decide)

/-- What is handed on without an error is what the events make of the tree. -/
theorem handOver_run {x : Appended} {ret' : Int} (traced : Traced els prev cs ret)
    (kind : prev = b.prev % 4) (some_ : 0 < b.prev)
    (run : handOver saveAppend ⟨b.nodes, b.pos, memory⟩ cs ret = (x, ret')) (good : 0 ≤ ret') :
    ret' = ret ∧ ∃ b', b.run (stepsOf cs memory) = some b' ∧ x.nodes = b'.nodes := by
  induction cs generalizing b els prev memory with
  | nil =>
      cases run
      exact ⟨rfl, b, rfl, rfl⟩
  | cons c cs ih =>
      obtain ⟨same, first, fits, els', more⟩ := traced.head
      rw [handOver, saveAppend_step (same.trans kind) first some_ fits] at run
      rw [stepsOf, Build.run]
      cases saved : b.save (c.step (memory 0)) with
      | none =>
          rw [saved] at run
          cases run
          exact absurd good (by decide)
      | some b₁ =>
          rw [saved] at run
          have flags : b₁.prev = c.event.flags := save_prev saved
          exact ih more (by rw [flags]) (by rw [flags]; exact flags_pos _) run

/-- What the events make of the tree is what is handed on. -/
theorem handOver_built (traced : Traced els prev cs ret) (kind : prev = b.prev % 4) (some_ : 0 < b.prev)
    (built : b.run (stepsOf cs memory) = some b') :
    ∃ x, handOver saveAppend ⟨b.nodes, b.pos, memory⟩ cs ret = (x, ret) ∧ x.nodes = b'.nodes := by
  induction cs generalizing b els prev memory with
  | nil =>
      cases built
      exact ⟨_, rfl, rfl⟩
  | cons c cs ih =>
      obtain ⟨same, first, fits, els', more⟩ := traced.head
      rw [stepsOf, Build.run] at built
      rw [handOver, saveAppend_step (same.trans kind) first some_ fits]
      cases saved : b.save (c.step (memory 0)) with
      | none =>
          rw [saved] at built
          cases built
      | some b₁ =>
          rw [saved] at built
          have flags : b₁.prev = c.event.flags := save_prev saved
          exact ih more (by rw [flags]) (by rw [flags]; exact flags_pos _) built

/-- For every text that is parsed without an error the nodes are linked as its elements are
    nested, if and only if no element comes after one that has only data. -/
theorem text_structured (type : FormatType) (fmt : Format) (input : List Byte) (fin : Error)
    (sect opt : Nat) (grants : Nat → Option (Mem Byte)) (memory : Nat → Grant) :
    ∃ cs x s ret, (∀ fuel, 2 * input.length < fuel →
        ∃ s', config (type.next fmt) saveAppend fuel ⟨Nodes.start, 0, memory⟩
          (.start input fin sect opt grants) = some (x, s', ret)) ∧
      calls (type.next fmt) (2 * input.length + 1) (.start input fin sect opt grants) = some (cs, s) ∧
      (0 ≤ ret → (Structured x.nodes (Outline.start.run (cs.map Call.event)).parents ↔
        Clean (cs.map Call.event))) := by
  have ready := ready_start input fin sect opt grants
  obtain ⟨⟨cs, s, ret⟩, run⟩ := calls_end type fmt (2 * input.length + 1) ready (by
    simp [remaining, Parser.start, Event.flags])
  have traced := (traced_calls type fmt ready run).1
  rcases result : handOver saveAppend ⟨Nodes.start, 0, memory⟩ cs ret with ⟨x, ret'⟩
  refine ⟨cs, x, (s, ret), ret', fun fuel enough => ?_, run, fun good => ?_⟩
  · obtain ⟨s', eq⟩ := config_handOver saveAppend ⟨Nodes.start, 0, memory⟩ (calls_mono run enough)
    rw [result] at eq
    exact ⟨s', eq⟩
  · obtain ⟨rfl, b, built, nodes⟩ := handOver_run (b := .start) traced rfl Nat.one_pos result good
    have bracketed := traced.bracketed good
    rw [← events_stepsOf cs memory] at bracketed ⊢
    rw [nodes]
    exact tracks_run tracks_start (by decide) _ bracketed built

/-- The names and values of a tree, in the order of its elements. -/
def Tree.contents : Tree → List (List Byte × Option (List Byte))
  | nil => []
  | option name val rest => (name, if val = [] then none else some val) :: rest.contents
  | section_ name inner rest => (name, none) :: inner.contents ++ rest.contents

/-- The sections of the elements of a tree, where the first of them has the number `k` and
    is in the section `q`. -/
def Tree.parents (q k : Nat) : Tree → List Nat
  | nil => []
  | option _ _ rest => q :: rest.parents q (k + 1)
  | section_ _ inner rest =>
      q :: inner.parents k (k + 1) ++ rest.parents q (k + 1 + inner.contents.length)

/-- The nodes behind the root have these names and values. -/
structure Contents (h : Nodes) (l : List (List Byte × Option (List Byte))) : Prop where
  size : h.size = l.length + 1
  content : ∀ i (inside : i < l.length), (h.node (i + 1)).ident = l[i].1 ∧ (h.node (i + 1)).value = l[i].2

/-- The name and the value of the node for a call. -/
def Call.content (c : Call) : Option (List Byte × Option (List Byte)) :=
  if c.event = .sectEnd then none else some (c.path.lastName.getD [], c.val)

theorem sameContent_refl (h : Nodes) : SameContent h h := fun _ => ⟨rfl, rfl⟩

theorem sameContent_links (h : Nodes) (i : Nat) (next prev parent children : Option Nat) :
    SameContent h (h.set i ⟨(h.node i).ident, (h.node i).value, next, prev, parent, children⟩) :=
  sameContent_set h i _ rfl rfl

theorem sameContent_after (h : Nodes) (l n : Nat) : SameContent h (h.gnodeAfter l n) := by
  unfold Nodes.gnodeAfter
  split
  · exact sameContent_refl h
  · dsimp only
    split
    · exact (sameContent_links h n _ _ _ _).trans (sameContent_links _ l _ _ _ _)
    · exact ((sameContent_links h n _ _ _ _).trans (sameContent_links _ l _ _ _ _)).trans
        (sameContent_links _ _ _ _ _ _)

theorem sameContent_insert (h : Nodes) (q n : Nat) : SameContent h (h.gnodeInsert q n) := by
  unfold Nodes.gnodeInsert
  split
  · exact (sameContent_links h q _ _ _ _).trans (sameContent_links _ n _ _ _ _)
  · exact sameContent_after _ _ _

theorem Contents.add {h h' : Nodes} {l : List (List Byte × Option (List Byte))} (contents : Contents h l)
    (name : List Byte) (val : Option (List Byte)) (same : SameContent (h.new name val) h')
    (size : h'.size = h.size + 1) : Contents h' (l ++ [(name, val)]) := by
  have below := contents.size
  refine ⟨by rw [size, below, List.length_append]; rfl, fun i inside => ?_⟩
  rw [(same (i + 1)).1, (same (i + 1)).2]
  by_cases new : i < l.length
  · rw [Nodes.new_other _ _ _ (by omega), List.getElem_append_left new]
    exact contents.content i new
  · rw [List.length_append, List.length_singleton] at inside
    obtain rfl : i = l.length := by omega
    rw [← below, Nodes.new_node, List.getElem_append_right (Nat.le_refl _)]
    simp [Nodes.single]

/-- All requests are granted. -/
def Granted (memory : Nat → Grant) : Prop := ∀ n, memory n = ⟨true, true, true⟩

variable {o : Outline} {e : Event}

/-- A new element is the node with its name and value. -/
theorem save_element {name : List Byte} (named : c.path.lastName = some name)
    (element : c.event ≠ .sectEnd) (regular : c.event ≠ .data) (fits : c.Fits)
    {l : List (List Byte × Option (List Byte))} (contents : Contents b.nodes l) :
    ∃ b', b.save (c.step ⟨true, true, true⟩) = some b' ∧ Contents b'.nodes (l ++ [(name, c.val)]) := by
  have saved : has c.event.flags 15 = true ∧ c.event.flags ≠ Event.sectEnd.flags ∧
      has c.event.flags Event.section_.flags = true := by
    generalize c.event = e' at element regular
    cases e' <;> first | exact absurd rfl element | exact absurd rfl regular | exact ⟨rfl, by decide, rfl⟩
  have append : nodeAppend b.nodes b.pos c.path c.val b.prev c.event.flags ⟨true, true, true⟩ =
      if b.prev ≠ 0 ∧ has b.prev Event.sectEnd.flags = false then
        ((b.nodes.new name c.val).gnodeInsert b.pos b.nodes.size, some b.nodes.size)
      else ((b.nodes.new name c.val).gnodeAdd b.pos b.nodes.size, some b.nodes.size) := by
    unfold nodeAppend
    rw [saved.1, if_neg (by decide), if_neg saved.2.1, saved.2.2, if_pos rfl, named]
    dsimp only
    rw [if_neg (by simp)]
  unfold Build.save
  rw [step_value fits]
  dsimp only [Call.step]
  rw [append]
  by_cases opened : b.prev ≠ 0 ∧ has b.prev Event.sectEnd.flags = false
  · rw [if_pos opened]
    refine ⟨_, rfl, contents.add name c.val (sameContent_insert _ _ _) ?_⟩
    rw [Nodes.gnodeInsert_size, Nodes.new_size]
  · rw [if_neg opened]
    refine ⟨_, rfl, contents.add name c.val (sameContent_after _ _ _) ?_⟩
    rw [Nodes.gnodeAdd, Nodes.gnodeAfter_size, Nodes.new_size]

/-- The end of a section changes no node. -/
theorem save_end (t : Tracks o b e) (regular : e ≠ .data) (end_ : c.event = .sectEnd)
    (grant : Grant) : ∃ b', b.save (c.step grant) = some b' ∧ b'.nodes = b.nodes := by
  have up : e ≠ .section_ → ∃ q, (b.nodes.node b.pos).parent = some q := by
    intro other
    have pos := t.pos
    rw [if_neg other] at pos
    obtain ⟨q, head, mem⟩ := pos
    obtain ⟨q', rest, opened, bound⟩ := t.nested.head
    rw [opened] at head
    cases head
    have size := t.nodes.size
    exact ⟨_, t.nodes.parent mem (by omega)⟩
  have append : ∃ next, nodeAppend b.nodes b.pos c.path (c.step grant).value b.prev
      Event.sectEnd.flags grant = (b.nodes, some next) := by
    rw [t.prev]
    by_cases opened : e = .section_
    · rw [opened]
      exact ⟨b.pos, rfl⟩
    · obtain ⟨q, parent⟩ := up opened
      refine ⟨q, ?_⟩
      rw [← parent]
      cases e with
      | section_ => exact absurd rfl opened
      | data => exact absurd rfl regular
      | option | optionData | sectEnd => rfl
  obtain ⟨next, append⟩ := append
  have here : nodeAppend b.nodes b.pos (c.step grant).path (c.step grant).value b.prev
      (c.step grant).event.flags (c.step grant).grant = (b.nodes, some next) := by
    rw [show (c.step grant).event = .sectEnd from end_]
    exact append
  refine ⟨⟨b.nodes, next, (c.step grant).event.flags⟩, ?_, rfl⟩
  unfold Build.save
  rw [here]

/-- Bracketed calls with names build their nodes. -/
theorem build_run (t : Tracks o b e) (regular : e ≠ .data) (granted : Granted memory)
    (bracketed : Bracketed (o.opened.length - 1) (cs.map Call.event))
    (calls : ∀ c ∈ cs, c.event ≠ .data ∧ c.Fits ∧ (c.event ≠ .sectEnd → ∃ n, c.path.lastName = some n))
    {l : List (List Byte × Option (List Byte))} (contents : Contents b.nodes l) :
    ∃ b', b.run (stepsOf cs memory) = some b' ∧ Contents b'.nodes (l ++ cs.filterMap Call.content) ∧
      Structured b'.nodes (o.run (cs.map Call.event)).parents := by
  induction cs generalizing o b e memory l with
  | nil =>
      refine ⟨b, rfl, ?_, t.nodes⟩
      rw [List.filterMap_nil, List.append_nil]
      exact contents
  | cons c cs ih =>
      obtain ⟨kind, fits, named⟩ := calls c (by simp)
      have rest : ∀ c' ∈ cs, c'.event ≠ .data ∧ c'.Fits ∧
          (c'.event ≠ .sectEnd → ∃ n, c'.path.lastName = some n) :=
        fun c' mem => calls c' (by simp [mem])
      rw [stepsOf, Build.run, granted 0, List.map_cons]
      rw [List.map_cons] at bracketed
      have granted' : Granted fun n => memory (n + 1) := fun n => granted (n + 1)
      by_cases end_ : c.event = .sectEnd
      · rw [end_] at bracketed
        obtain ⟨deep, bracketed⟩ := bracketed
        obtain ⟨b₁, saved, same⟩ := save_end t regular end_ ⟨true, true, true⟩
        have t' : Tracks (o.step c.event) b₁ c.event := tracks_end t regular end_ (by omega) saved
        rw [saved]
        have content : c.content = none := if_pos end_
        rw [List.filterMap_cons_none content]
        refine ih t' kind granted' ?_ rest (same ▸ contents)
        rw [end_]
        simpa [Outline.step] using bracketed
      · obtain ⟨n, named⟩ := named end_
        obtain ⟨b₁, saved, contents'⟩ := save_element named end_ kind fits contents
        have t' : Tracks (o.step c.event) b₁ c.event := tracks_element t regular end_ saved
        rw [saved]
        have content : c.content = some (n, c.val) := by
          rw [Call.content, if_neg end_, named]
          rfl
        rw [List.filterMap_cons_some content, List.append_cons]
        refine ih t' kind granted' ?_ rest contents'
        obtain ⟨q, others, opened, _⟩ := t.nested.head
        rw [(Outline.step_element opened end_).2]
        generalize c.event = e' at bracketed end_ kind
        cases e' with
        | sectEnd => exact absurd rfl end_
        | data => exact absurd rfl kind
        | section_ => simpa [Bracketed, opened] using bracketed
        | option | optionData => exact bracketed

/-- The elements of a tree, with their names and values. -/
def Entry.content (e : Entry) : Option (List Byte × Option (List Byte)) :=
  if e.event = .sectEnd then none else some (e.els.getLast?.getD [], e.val)

theorem optionEntry_content (els : List (List Byte)) (name val : List Byte) :
    (optionEntry (els ++ [name]) val).content = some (name, if val = [] then none else some val) ∧
      (optionEntry (els ++ [name]) val).event = if val = [] then .option else .optionData := by
  unfold optionEntry
  split <;> simp [Entry.content]

theorem entries_contents (tree : Tree) (els : List (List Byte)) :
    (tree.entries els).filterMap Entry.content = tree.contents := by
  induction tree generalizing els with
  | nil => rfl
  | option name val rest ih =>
      rw [Tree.entries, List.filterMap_cons_some (optionEntry_content els name val).1, ih]
      rfl
  | section_ name inner rest ihInner ih =>
      simp [Tree.entries, Tree.contents, Entry.content, ihInner, ih]

theorem length_parents (tree : Tree) (q k : Nat) : (tree.parents q k).length = tree.contents.length := by
  induction tree generalizing q k with
  | nil => rfl
  | option name val rest ih => simp [Tree.parents, Tree.contents, ih]
  | section_ name inner rest ihInner ih => simp [Tree.parents, Tree.contents, ihInner, ih]

/-- The events of a tree bring its outline, and the sections are closed again. -/
theorem entries_outline (tree : Tree) (els : List (List Byte)) (parents opened : List Nat) (q : Nat) :
    (Outline.mk parents (q :: opened)).run ((tree.entries els).map Entry.event) =
      ⟨parents ++ tree.parents q (parents.length + 1), q :: opened⟩ := by
  induction tree generalizing els parents q opened with
  | nil => simp [Tree.entries, Tree.parents, Outline.run]
  | option name val rest ih =>
      have step : (Outline.mk parents (q :: opened)).step (optionEntry (els ++ [name]) val).event =
          ⟨parents ++ [q], q :: opened⟩ := by
        rw [(optionEntry_content els name val).2]
        split <;> rfl
      have next := ih els (parents ++ [q]) opened q
      rw [List.length_append, List.length_singleton] at next
      rw [Tree.entries, List.map_cons, Outline.run, List.foldl_cons, step]
      refine Eq.trans next ?_
      simp [Tree.parents]
  | section_ name inner rest ihInner ih =>
      have first := ihInner (els ++ [name]) (parents ++ [q]) (q :: opened) (parents.length + 1)
      rw [List.length_append, List.length_singleton] at first
      have last := ih els (parents ++ [q] ++ inner.parents (parents.length + 1) (parents.length + 1 + 1))
        opened q
      simp only [List.length_append, List.length_singleton, length_parents] at last
      unfold Outline.run at first last ⊢
      rw [Tree.entries, List.map_append, List.map_cons, List.map_cons, List.foldl_append,
        List.foldl_cons, List.foldl_cons]
      have opens : (Outline.mk parents (q :: opened)).step .section_ =
          ⟨parents ++ [q], (parents.length + 1) :: q :: opened⟩ := rfl
      have number : parents.length + 1 + inner.contents.length + 1 =
          parents.length + 1 + 1 + inner.contents.length := by
        omega
      rw [number] at last
      rw [opens, first]
      refine Eq.trans last ?_
      simp [Tree.parents]

/-- A name is short enough to be counted in one byte. -/
def Entry.Short (e : Entry) : Prop := ∃ es name, e.els = es ++ [name] ∧ name.length < 256

theorem entries_short {fmt : Format} {sect opt : Nat} {tree : Tree} (accepted : tree.Accepted fmt sect opt)
    (els : List (List Byte)) : ∀ e ∈ tree.entries els, e.Short ∧ e.event ≠ .data ∧
      e.val.isSome = has e.event.flags Event.data.flags := by
  induction tree generalizing els with
  | nil => exact fun e mem => by cases mem
  | option name val rest ih =>
      obtain ⟨named, _, accepted⟩ := accepted
      intro e mem
      rcases List.mem_cons.mp mem with rfl | mem
      · unfold optionEntry
        split
        · exact ⟨⟨els, name, rfl, named.short⟩, (fun eq => by cases eq), by simp [has, Event.flags]⟩
        · exact ⟨⟨els, name, rfl, named.short⟩, (fun eq => by cases eq), by simp [has, Event.flags]⟩
      · exact ih accepted els e mem
  | section_ name inner rest ihInner ih =>
      obtain ⟨named, acceptedInner, accepted⟩ := accepted
      intro e mem
      rcases List.mem_cons.mp mem with rfl | mem
      · exact ⟨⟨els, name, rfl, named.short⟩, (fun eq => by cases eq), by simp [has, Event.flags]⟩
      · rcases List.mem_append.mp mem with mem | mem
        · exact ihInner acceptedInner _ e mem
        · rcases List.mem_cons.mp mem with rfl | mem
          · exact ⟨⟨els, name, rfl, named.short⟩, (fun eq => by cases eq), by simp [has, Event.flags]⟩
          · exact ih accepted els e mem

/-- The call for an entry brings its name and value. -/
theorem Shows.content {e : Entry} (shows : Shows c e) (short : e.Short) :
    (∃ n, c.path.lastName = some n) ∧ c.content = e.content := by
  obtain ⟨es, name, els, len⟩ := short
  obtain ⟨behind, holds⟩ := shows.path
  rw [els] at holds
  have last := holds.lastName
  rw [Nat.mod_eq_of_lt len, List.take_length] at last
  refine ⟨⟨name, last⟩, ?_⟩
  unfold Call.content Entry.content
  rw [shows.event, last, els, shows.val]
  simp

/-- The calls for the entries of a tree have their events, names and values. -/
theorem shows_entries {es : List Entry} (shows : List.Forall₂ Shows cs es)
    (short : ∀ e ∈ es, e.Short ∧ e.event ≠ .data ∧ e.val.isSome = has e.event.flags Event.data.flags) :
    cs.map Call.event = es.map Entry.event ∧
      cs.filterMap Call.content = es.filterMap Entry.content ∧
      ∀ c ∈ cs, c.event ≠ .data ∧ c.Fits ∧ (c.event ≠ .sectEnd → ∃ n, c.path.lastName = some n) := by
  induction shows with
  | nil => exact ⟨rfl, rfl, fun c mem => by cases mem⟩
  | @cons c e cs es show_ _ ih =>
      obtain ⟨events, contents, all⟩ := ih fun e' mem => short e' (by simp [mem])
      obtain ⟨len, regular, fits⟩ := short e (by simp)
      obtain ⟨named, content⟩ := show_.content len
      refine ⟨?_, ?_, fun c' mem => ?_⟩
      · rw [List.map_cons, List.map_cons, events, show_.event]
      · rw [List.filterMap_cons, List.filterMap_cons, content, contents]
      · rcases List.mem_cons.mp mem with rfl | mem
        · refine ⟨by rw [show_.event]; exact regular, ?_, fun _ => named⟩
          unfold Call.Fits
          rw [show_.event, show_.val]
          exact fits
        · exact all c' mem

/-- Every element that is handed on becomes a node with its name and value, linked as the
    elements are nested. -/
theorem entries_built (type : FormatType) {fmt : Format} {text : List Byte} {fin : Error}
    {sect opt : Nat} {grants : Nat → Option (Mem Byte)} {memory : Nat → Grant}
    (granted : Granted memory) {cs : List Call} {s : Parser} {es : List Entry}
    (run : calls (type.next fmt) (2 * text.length + 1) (.start text fin sect opt grants) =
      some (cs, s, 0))
    (shows : List.Forall₂ Shows cs es)
    (short : ∀ e ∈ es, e.Short ∧ e.event ≠ .data ∧ e.val.isSome = has e.event.flags Event.data.flags) :
    ∃ x, (∀ fuel, 2 * text.length < fuel →
        ∃ s', config (type.next fmt) saveAppend fuel ⟨Nodes.start, 0, memory⟩
          (.start text fin sect opt grants) = some (x, s', 0)) ∧
      Structured x.nodes (Outline.start.run (es.map Entry.event)).parents ∧
      Contents x.nodes (es.filterMap Entry.content) := by
  have traced := (traced_calls type fmt (ready_start text fin sect opt grants) run).1
  obtain ⟨events, contents, regular⟩ := shows_entries shows short
  have bracketed : Bracketed 0 (cs.map Call.event) := traced.bracketed (Int.le_refl 0)
  have empty : Contents Build.start.nodes [] := ⟨rfl, fun i inside => by cases inside⟩
  obtain ⟨b, built, filled, linked⟩ :=
    build_run tracks_start (by decide) granted bracketed regular empty
  obtain ⟨x, handed, nodes⟩ := handOver_built traced rfl Nat.one_pos built
  refine ⟨x, fun fuel enough => ?_, ?_, ?_⟩
  · obtain ⟨s', eq⟩ := config_handOver saveAppend ⟨Nodes.start, 0, memory⟩ (calls_mono run enough)
    rw [show handOver saveAppend ⟨Nodes.start, 0, memory⟩ cs 0 = (x, 0) from handed] at eq
    exact ⟨s', eq⟩
  · rw [← events, nodes]
    exact linked
  · rw [← contents, nodes]
    exact filled

end Mpt.Parse
