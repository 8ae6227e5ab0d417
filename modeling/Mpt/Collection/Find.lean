import Mpt.Core

/-! # Items of collections

`collection::relation::find` visits the items of a collection and of the collections in them.  The
names to match and the value that was found are in a record that is copied for each level.
-/

namespace Mpt.Collection

/-- The value of `struct identifier`, with the zero behind a name. -/
structure Identifier where
  charset : Nat
  data : List Byte
  deriving Repr, DecidableEq

/-- `identifier::equal`: `mpt_identifier_compare` for a name that is given. -/
def Identifier.equal (id : Identifier) (name : List Byte) (nlen : Nat) : Bool :=
  if id.charset ≠ 1 then false
  else if nlen = 0 ∧ id.data = [] then true
  else if nlen + 1 ≠ id.data.length then false
  else id.data.take nlen = name.take nlen ∧ (nlen = 0 ∨ id.data[nlen]? = some 0)

/-- The items of a collection: each has a value or none, and is a collection itself or not. -/
inductive Items (V : Type) where
  | nil
  | leaf (id : Option Identifier) (conv : Option V) (rest : Items V)
  | coll (id : Option Identifier) (conv : Option V) (sub rest : Items V)

/-- `struct item_match` -/
structure ItemMatch (V : Type) where
  conv : Option V
  ident : List Byte
  curr : Nat
  left : Nat
  type : Nat
  sep : Byte

def traverseLeafs : Nat := 1
def traverseNonLeafs : Nat := 2
def traverseStop : Nat := 0x100

/-- The handler asks to stop. -/
def stops (flags : Nat) : Bool := flags &&& traverseStop != 0

/-- `memchr` -/
def memchr (c : Byte) (l : List Byte) : Option Nat :=
  if c ∈ l then some (l.takeWhile (· ≠ c)).length else none

section Search

variable {V : Type} (convert : V → Nat → Int)

/-- `find_item`, with `each` of the nested collection. -/
def findItem (id : Option Identifier) (conv : Option V)
    (sub : Option (ItemMatch V → ItemMatch V × Except Int Nat)) (ctx : ItemMatch V) :
    ItemMatch V × Except Int Nat :=
  match id with
  | none => (ctx, .ok 0)
  | some id =>
      -- identifier must match current element
      if !id.equal ctx.ident ctx.curr then (ctx, .ok 0)
      -- top level entry
      else if ctx.left = 0 then
        match conv with
        | none => (ctx, .ok traverseLeafs)
        | some v =>
            if ctx.type ≠ 0 ∧ convert v ctx.type < 0 then (ctx, .ok traverseLeafs)
            else ({ ctx with conv := some v }, .ok (traverseStop ||| traverseLeafs))
      else
        match sub with
        | none => (ctx, .ok 0)
        | some each =>
            let next := ctx.ident.drop (ctx.curr + 1)
            let tmp := match memchr ctx.sep (next.take ctx.left) with
              | some sep => { ctx with ident := next, curr := sep, left := ctx.left - (sep + 1) }
              | none => { ctx with ident := next, curr := ctx.left, left := 0 }
            match each tmp with
            | (_, .error ret) => (ctx, .error ret)
            | (tmp, .ok ret) => ({ ctx with conv := tmp.conv }, .ok (ret ||| traverseNonLeafs))

/-- The loop of `each` behind the handler -/
def resume (next : (ret : Nat) → ItemMatch V → ItemMatch V × Except Int Nat) (ret : Nat) :
    ItemMatch V × Except Int Nat → ItemMatch V × Except Int Nat
  | (ctx, .error curr) => (ctx, .error curr)
  | (ctx, .ok curr) => if stops curr then (ctx, .ok (ret ||| curr)) else next (ret ||| curr) ctx

/-- `each` with this handler, as a group of items has it. -/
def each : Items V → (ret : Nat) → ItemMatch V → ItemMatch V × Except Int Nat
  | .nil, ret, ctx => (ctx, .ok ret)
  | .leaf id conv rest, ret, ctx => resume (each rest) ret (findItem convert id conv none ctx)
  | .coll id conv sub rest, ret, ctx =>
      resume (each rest) ret (findItem convert id conv (some (each sub 0)) ctx)

/-- `collection::relation` -/
structure Relation (V : Type) where
  curr : Items V
  sep : Byte

/-- `collection::relation::find`, with the parents behind the relation.  The last one may be a relation
    of another kind, or there is none and nothing is found. -/
def find (last : Nat → List Byte → Option V) (type : Nat) (name : List Byte) : List (Relation V) → Option V
  | [] => last type name
  | rel :: parents =>
      let m : ItemMatch V := match if rel.sep ≠ 0 then memchr rel.sep name else none with
        | some plen => ⟨none, name, plen, name.length - plen - 1, type, rel.sep⟩
        | none => ⟨none, name, name.length, 0, type, rel.sep⟩
      match each convert rel.curr 0 m with
      | (⟨some v, _, _, _, _, _⟩, .ok _) => some v
      | _ => find last type name parents

end Search

/-! ## What is to be found -/

section Spec

variable {V : Type} (convert : V → Nat → Int)

/-- The name that an identifier is. -/
def text : Option Identifier → Option (List Byte)
  | none => none
  | some id => if id.charset = 1 ∧ id.data.getLast? = some 0 then some id.data.dropLast else none

/-- All items in depth-first order, with the identifiers from the top and the value. -/
def visits : Items V → List (List (Option (List Byte)) × Option V)
  | .nil => []
  | .leaf id conv rest => ([text id], conv) :: visits rest
  | .coll id conv sub rest =>
      ([text id], conv) :: ((visits sub).map fun item => (text id :: item.1, item.2)) ++ visits rest

/-- The value is convertible to the type. -/
def Fits (type : Nat) (v : V) : Prop := type = 0 ∨ 0 ≤ convert v type

instance (type : Nat) (v : V) : Decidable (Fits convert type v) :=
  inferInstanceAs (Decidable (type = 0 ∨ 0 ≤ convert v type))

/-- The value of an item with these identifiers, if it is convertible. -/
def wanted (type : Nat) (parts : List (List Byte)) (item : List (Option (List Byte)) × Option V) : Option V :=
  if item.1 = parts.map some then item.2.filter (Fits convert type ·) else none

/-- The parts of a name.  Without separator it is one. -/
def parts (sep : Byte) (name : List Byte) : List (List Byte) :=
  if sep = 0 then [name] else name.splitOn sep

end Spec

/-! ## Names -/

theorem equal_iff (id : Identifier) {p : List Byte} (some_ : p ≠ []) (after : List Byte) :
    id.equal (p ++ after) p.length = true ↔ text (some id) = some p := by
  obtain ⟨charset, data⟩ := id
  have length := List.length_pos_of_ne_nil some_
  unfold Identifier.equal text
  by_cases named : charset = 1
  · rw [if_neg (not_not_intro named), if_neg (by omega)]
    rcases List.eq_nil_or_concat' data with rfl | ⟨l, x, rfl⟩
    · simp
    · simp only [List.length_append, List.length_singleton]
      by_cases same : p.length + 1 = l.length + 1
      · have same : p.length = l.length := Nat.succ.inj same
        simp only [same, named, ne_eq, not_true_eq_false, if_false]
        rw [← same, List.take_left' rfl, List.getElem?_append_right (Nat.le_of_eq same.symm), same,
          List.take_left' rfl]
        have some_l : l ≠ [] := List.length_pos_iff.mp (by omega)
        by_cases zero : x = 0 <;> simp [zero, some_l]
      · simp only [if_pos same]
        refine iff_of_false nofun fun h => same ?_
        split at h
        · rw [← Option.some.inj h, List.dropLast_concat]
        · cases h
  · simp [named]

theorem memchr_none {c : Byte} {l : List Byte} (out : c ∉ l) : memchr c l = none := if_neg out

theorem memchr_first {c : Byte} {p : List Byte} (out : c ∉ p) (next : List Byte) :
    memchr c (p ++ c :: next) = some p.length := by
  have front : ∀ x ∈ p, decide (x ≠ c) = true := fun x mem => decide_eq_true fun same => out (same ▸ mem)
  unfold memchr
  rw [if_pos (by simp), List.takeWhile_append_of_pos front]
  simp

section Match

variable {V : Type} {convert : V → Nat → Int}

/-- What is left to match. -/
def Names (ctx : ItemMatch V) (parts : List (List Byte)) : Prop :=
  ∃ p after, ctx.ident = p ++ after ∧ ctx.curr = p.length ∧ p ≠ [] ∧
    ((ctx.left = 0 ∧ parts = [p]) ∨
      ∃ next behind, after = ctx.sep :: (next ++ behind) ∧ ctx.left = next.length ∧
        [] ∉ next.splitOn ctx.sep ∧ parts = p :: next.splitOn ctx.sep)

/-- The first part of a text is the next name. -/
theorem names_first (conv : Option V) (type : Nat) {sep : Byte} {name : List Byte} (behind : List Byte)
    (full : [] ∉ name.splitOn sep) :
    Names (match memchr sep name with
      | some plen => ⟨conv, name ++ behind, plen, name.length - (plen + 1), type, sep⟩
      | none => ⟨conv, name ++ behind, name.length, 0, type, sep⟩) (name.splitOn sep) := by
  by_cases found : sep ∈ name
  · obtain ⟨p, next, rfl, out⟩ := List.eq_append_cons_of_mem found
    rw [List.splitOn_append_cons_self_of_not_mem out] at full ⊢
    obtain ⟨some_, full⟩ := not_or.mp (mt List.mem_cons.mpr full)
    rw [memchr_first out]
    refine ⟨p, sep :: (next ++ behind), by simp, rfl, Ne.symm some_, .inr ⟨next, behind, rfl, ?_, full, rfl⟩⟩
    simp only [List.length_append, List.length_cons]
    omega
  · rw [List.splitOn_eq_singleton found] at full ⊢
    rw [memchr_none found]
    exact ⟨name, behind, rfl, rfl, fun empty => full (empty ▸ List.mem_singleton_self _), .inl ⟨rfl, rfl⟩⟩

theorem stops_or (a b : Nat) : stops (a ||| b) = (stops a || stops b) := by
  unfold stops
  rw [Nat.and_or_distrib_right, Bool.eq_iff_iff, Bool.or_eq_true, bne_iff_ne, bne_iff_ne, bne_iff_ne,
    ne_eq, Nat.or_eq_zero_iff, not_and_or]

theorem visits_some (items : Items V) : ∀ item ∈ visits items, item.1 ≠ [] := by
  induction items with
  | nil => exact nofun
  | leaf id conv rest ih => exact List.forall_mem_cons.mpr ⟨nofun, ih⟩
  | coll id conv sub rest _ ih =>
      intro item mem
      rcases List.mem_append.mp mem with mem | mem
      · rcases List.mem_cons.mp mem with rfl | mem
        · exact nofun
        · obtain ⟨inner, -, rfl⟩ := List.mem_map.mp mem
          exact nofun
      · exact ih item mem

/-- What is wanted of the items below another one. -/
theorem wanted_below (id : Option Identifier) (type : Nat) (p : List Byte) (parts : List (List Byte))
    (items : Items V) :
    ((visits items).map fun item => (text id :: item.1, item.2)).findSome? (wanted convert type (p :: parts)) =
      if text id = some p then (visits items).findSome? (wanted convert type parts) else none := by
  rw [List.findSome?_map]
  by_cases same : text id = some p
  · rw [if_pos same]
    congr 1
    funext item
    simp [wanted, same]
  · rw [if_neg same, List.findSome?_eq_none_iff]
    intro item _
    simp [wanted, same]

theorem wanted_none (type : Nat) (items : Items V) :
    (visits items).findSome? (wanted convert type []) = none := by
  rw [List.findSome?_eq_none_iff]
  intro item mem
  exact if_neg (visits_some items item mem)

variable {ctx : ItemMatch V} {p : List Byte} {names : List (List Byte)}

/-- What a handler or a list of items does: the value is stored if there is one, and only then
    the visit stops. -/
def Stored (ctx : ItemMatch V) (found : Option V) (before : Nat) (out : ItemMatch V × Except Int Nat) : Prop :=
  ∃ flags, out = ({ ctx with conv := found }, .ok flags) ∧ stops flags = (stops before || found.isSome)

theorem Names.head (h : Names ctx (p :: names)) (id : Identifier) :
    id.equal ctx.ident ctx.curr = true ↔ text (some id) = some p := by
  obtain ⟨q, after, ident, curr, some_, last | ⟨next, behind, -, -, -, same⟩⟩ := h
  · cases last.2
    rw [ident, curr]
    exact equal_iff id some_ after
  · cases same
    rw [ident, curr]
    exact equal_iff id some_ after

theorem Stored.nothing (unset : ctx.conv = none) {flags : Nat} (going : stops flags = false) :
    Stored ctx none 0 (ctx, .ok flags) := by
  refine ⟨flags, ?_, going⟩
  rw [← unset]

variable (convert) in
/-- The handler at an item of that name, where it is the last one to match. -/
theorem findItem_last (unset : ctx.conv = none) (left : ctx.left = 0) {id : Identifier}
    (equal : id.equal ctx.ident ctx.curr = true) (conv : Option V)
    (each : Option (ItemMatch V → ItemMatch V × Except Int Nat)) :
    Stored ctx (conv.filter (Fits convert ctx.type ·)) 0 (findItem convert (some id) conv each ctx) := by
  unfold findItem
  simp only [equal, Bool.not_true, Bool.false_eq_true, if_false, if_pos left]
  cases conv with
  | none => exact Stored.nothing unset rfl
  | some v =>
      simp only
      by_cases fits : Fits convert ctx.type v
      · have able : ¬ (ctx.type ≠ 0 ∧ convert v ctx.type < 0) := by
          rintro ⟨type, low⟩
          exact fits.elim type (Int.not_le.mpr low)
        have taken : (some v).filter (Fits convert ctx.type ·) = some v := by simp [Option.filter, fits]
        rw [if_neg able, taken]
        exact ⟨_, rfl, rfl⟩
      · have unable : ctx.type ≠ 0 ∧ convert v ctx.type < 0 := by
          obtain ⟨type, low⟩ := not_or.mp fits
          exact ⟨type, Int.not_le.mp low⟩
        have left_out : (some v).filter (Fits convert ctx.type ·) = none := by simp [Option.filter, fits]
        rw [if_pos unable, left_out]
        exact Stored.nothing unset rfl

variable (convert) in
/-- The handler at an item of that name with more names to match: `below` is the visit of what is
    in it, with a record of its own. -/
theorem findItem_below (unset : ctx.conv = none) {next behind : List Byte}
    (rest : ctx.ident.drop (ctx.curr + 1) = next ++ behind) (left : ctx.left = next.length)
    (full : [] ∉ next.splitOn ctx.sep) {id : Identifier} (equal : id.equal ctx.ident ctx.curr = true)
    (conv : Option V) (sub : Option (Items V)) (found : Items V → Option V)
    (each : Items V → ItemMatch V → ItemMatch V × Except Int Nat)
    (below : ∀ items ∈ sub, ∀ tmp : ItemMatch V, Names tmp (next.splitOn ctx.sep) →
      tmp.conv = none → tmp.type = ctx.type → Stored tmp (found items) 0 (each items tmp)) :
    Stored ctx (sub.bind found) 0 (findItem convert (some id) conv (sub.map each) ctx) := by
  have length : 0 < next.length := List.length_pos_of_ne_nil fun empty => full (by
    rw [empty, List.splitOn_nil]
    exact List.mem_singleton_self _)
  unfold findItem
  simp only [equal, Bool.not_true, Bool.false_eq_true, if_false]
  rw [if_neg (by omega)]
  cases sub with
  | none => exact Stored.nothing unset rfl
  | some items =>
      have inner := below items rfl _ (names_first ctx.conv ctx.type behind full)
        (by cases memchr ctx.sep next <;> exact unset) (by cases memchr ctx.sep next <;> rfl)
      obtain ⟨flags, out, stop⟩ := inner
      simp only [Option.map_some, Option.bind_some, rest, left, List.take_left' rfl]
      rw [out]
      refine ⟨flags ||| traverseNonLeafs, ?_, ?_⟩
      · rw [left]
      · rw [stops_or, stop]
        exact Bool.or_false _

variable (convert) in
/-- The handler at one item. -/
theorem findItem_spec (h : Names ctx (p :: names)) (unset : ctx.conv = none) (id : Option Identifier)
    (conv : Option V) (sub : Option (Items V))
    (each : Items V → ItemMatch V → ItemMatch V × Except Int Nat)
    (below : ∀ items ∈ sub, ∀ tmp : ItemMatch V, Names tmp names → tmp.conv = none → tmp.type = ctx.type →
      Stored tmp ((visits items).findSome? (wanted convert ctx.type names)) 0 (each items tmp)) :
    Stored ctx ((wanted convert ctx.type (p :: names) ([text id], conv)).or
        (sub.bind fun items => if text id = some p then
          (visits items).findSome? (wanted convert ctx.type names) else none))
      0 (findItem convert id conv (sub.map each) ctx) := by
  by_cases same : text id = some p
  · cases id with
    | none => cases same
    | some id =>
        have equal := (h.head id).mpr same
        simp only [if_pos same]
        obtain ⟨q, after, ident, curr, some_, ⟨left, last⟩ | ⟨next, behind, rest, left, full, more⟩⟩ := h
        · cases last
          have none_ : (sub.bind fun items =>
              (visits items).findSome? (wanted convert ctx.type [])) = none := by
            cases sub with
            | none => rfl
            | some items => exact wanted_none _ items
          have here : wanted convert ctx.type [p] ([text (some id)], conv) =
              conv.filter (Fits convert ctx.type ·) := if_pos (by rw [same]; rfl)
          rw [none_, here, Option.or_none]
          exact findItem_last convert unset left equal conv _
        · cases more
          have longer : wanted convert ctx.type (p :: next.splitOn ctx.sep) ([text (some id)], conv) = none := by
            refine if_neg fun eq => List.splitOn_ne_nil ctx.sep next ?_
            exact List.map_eq_nil_iff.mp (List.cons.inj eq).2.symm
          have behind_ : ctx.ident.drop (ctx.curr + 1) = next ++ behind := by
            rw [ident, curr, rest, ← List.drop_drop, List.drop_left' rfl]
            rfl
          rw [longer, Option.none_or]
          exact findItem_below convert unset behind_ left full equal conv sub _ each below
  · have found : (wanted convert ctx.type (p :: names) ([text id], conv)).or
        (sub.bind fun items => if text id = some p then
          (visits items).findSome? (wanted convert ctx.type names) else none) = none := by
      cases sub <;> simp [wanted, same]
    have out : findItem convert id conv (sub.map each) ctx = (ctx, .ok 0) := by
      cases id with
      | none => cases sub <;> rfl
      | some id =>
          have other := mt (h.head id).mp same
          cases sub <;> simp [findItem, other]
    rw [found, out]
    exact Stored.nothing unset rfl

theorem Names.some (h : Names ctx names) : ∃ p more, names = p :: more := by
  obtain ⟨p, after, -, -, -, ⟨-, rfl⟩ | ⟨next, behind, -, -, -, rfl⟩⟩ := h
  · exact ⟨p, [], rfl⟩
  · exact ⟨p, _, rfl⟩

/-- One item and those behind it. -/
theorem Stored.step {found more : Option V} {ret : Nat} {out : ItemMatch V × Except Int Nat}
    {next : Nat → ItemMatch V → ItemMatch V × Except Int Nat} (h : Stored ctx found 0 out)
    (unset : ctx.conv = none) (going : stops ret = false)
    (later : ∀ ret, stops ret = false → Stored ctx more ret (next ret ctx)) :
    Stored ctx (found.or more) ret (resume next ret out) := by
  obtain ⟨flags, rfl, stop⟩ := h
  have stop : stops flags = found.isSome := stop
  unfold resume
  cases found with
  | none =>
      have same : ({ ctx with conv := none } : ItemMatch V) = ctx := by rw [← unset]
      have further : stops (ret ||| flags) = false := by
        rw [stops_or, stop, going]
        rfl
      simp only [stop, same, Option.isSome_none, Bool.false_eq_true, if_false, Option.none_or]
      obtain ⟨last, run, stopped⟩ := later (ret ||| flags) further
      exact ⟨last, run, by rw [stopped, further, going]⟩
  | some v =>
      simp only [stop, Option.isSome_some, if_true, Option.some_or]
      exact ⟨ret ||| flags, rfl, by rw [stops_or, stop]⟩

variable (convert) in
/-- Items are visited until a value is found. -/
theorem each_spec (h : Names ctx names) (unset : ctx.conv = none) (items : Items V) (ret : Nat)
    (going : stops ret = false) :
    Stored ctx ((visits items).findSome? (wanted convert ctx.type names)) ret (each convert items ret ctx) := by
  induction items generalizing ctx names ret with
  | nil =>
      refine ⟨ret, ?_, ?_⟩
      · show (ctx, _) = _
        rw [show (visits (.nil : Items V)).findSome? (wanted convert ctx.type names) = none from rfl, ← unset]
      · exact (Bool.or_false _).symm
  | leaf id conv rest ih =>
      obtain ⟨p, more, rfl⟩ := h.some
      have here := findItem_spec convert h unset id conv none (fun items tmp => each convert items 0 tmp) nofun
      rw [Option.bind_none, Option.or_none] at here
      have all := here.step unset going fun ret going => ih h unset ret going
      have first : (visits (.leaf id conv rest)).findSome? (wanted convert ctx.type (p :: more)) =
          (wanted convert ctx.type (p :: more) ([text id], conv)).or
            ((visits rest).findSome? (wanted convert ctx.type (p :: more))) := by
        rw [visits, List.findSome?_cons]
        cases wanted convert ctx.type (p :: more) ([text id], conv) <;> rfl
      rw [first]
      exact all
  | coll id conv sub rest ihSub ih =>
      obtain ⟨p, more, rfl⟩ := h.some
      have here := findItem_spec convert h unset id conv (some sub) (fun items tmp => each convert items 0 tmp) (by
        rintro _ ⟨rfl⟩ tmp names unset same
        rw [← same]
        exact ihSub names unset 0 rfl)
      have all := here.step unset going fun ret going => ih h unset ret going
      have first : (visits (.coll id conv sub rest)).findSome? (wanted convert ctx.type (p :: more)) =
          ((wanted convert ctx.type (p :: more) ([text id], conv)).or
            (if text id = some p then (visits sub).findSome? (wanted convert ctx.type more) else none)).or
              ((visits rest).findSome? (wanted convert ctx.type (p :: more))) := by
        rw [visits, List.findSome?_append, List.findSome?_cons, wanted_below]
        cases wanted convert ctx.type (p :: more) ([text id], conv) <;> rfl
      rw [first]
      exact all

/-- The record that a relation starts with -/
theorem relation_start (type : Nat) {sep : Byte} {name : List Byte} (full : [] ∉ parts sep name) :
    ∃ m : ItemMatch V, (match if sep ≠ 0 then memchr sep name else none with
        | some plen => (⟨none, name, plen, name.length - plen - 1, type, sep⟩ : ItemMatch V)
        | none => ⟨none, name, name.length, 0, type, sep⟩) = m ∧
      Names m (parts sep name) ∧ m.conv = none ∧ m.type = type := by
  unfold parts at full ⊢
  by_cases single : sep = 0
  · rw [if_pos single] at full ⊢
    rw [if_neg (not_not_intro single)]
    have some_ : name ≠ [] := fun empty => full (empty ▸ List.mem_singleton_self _)
    exact ⟨_, rfl, ⟨name, [], (List.append_nil name).symm, rfl, some_, .inl ⟨rfl, rfl⟩⟩, rfl, rfl⟩
  · rw [if_neg single] at full ⊢
    rw [if_pos single]
    have names := names_first (V := V) none type [] full
    rw [List.append_nil] at names
    refine ⟨_, rfl, ?_, ?_, ?_⟩
    · cases found : memchr sep name with
      | none => rwa [found] at names
      | some plen => rwa [found] at names
    · cases memchr sep name <;> rfl
    · cases memchr sep name <;> rfl

variable (convert) in
/-- The first item of a depth-first visit is found, of the relation itself or of the nearest parent. -/
theorem finds_first (last : Nat → List Byte → Option V) (type : Nat) (name : List Byte) (rels : List (Relation V))
    (full : ∀ rel ∈ rels, [] ∉ parts rel.sep name) :
    find convert last type name rels =
      (rels.findSome? fun rel => (visits rel.curr).findSome? (wanted convert type (parts rel.sep name))).or
        (last type name) := by
  induction rels with
  | nil => rfl
  | cons rel parents ih =>
      obtain ⟨here, above⟩ := List.forall_mem_cons.mp full
      obtain ⟨m, start, names, unset, same⟩ := relation_start type here (V := V)
      obtain ⟨flags, run, -⟩ := each_spec convert names unset rel.curr 0 rfl
      rw [same] at run
      rw [List.findSome?_cons, find, start, run]
      cases (visits rel.curr).findSome? (wanted convert type (parts rel.sep name)) with
      | none => exact ih above
      | some v => rfl

/-- A value is a number here, and convertible to the type of this number. -/
def sample (v type : Nat) : Int := if v = type then 0 else -3

/-- `a.b` is first an item of the wrong type and then one in the second collection of this name. -/
def sampleItems : Items Nat :=
  .coll (some ⟨1, [97, 0]⟩) none (.leaf (some ⟨1, [98, 0]⟩) (some 5) .nil)
    (.leaf (some ⟨1, [97, 0]⟩) (some 7)
      (.coll (some ⟨1, [97, 0]⟩) (some 7) (.leaf (some ⟨1, [98, 0]⟩) (some 7) .nil) .nil))

theorem sample_found : find sample (fun _ _ => none) 7 [97, 46, 98] [⟨.nil, 0⟩, ⟨sampleItems, 46⟩] = some 7 :=
  finds_first sample (fun _ _ => none) 7 [97, 46, 98] [⟨.nil, 0⟩, ⟨sampleItems, 46⟩]
    (List.forall_mem_cons.mpr ⟨by decide, List.forall_mem_cons.mpr ⟨by decide, nofun⟩⟩)

end Match

end Mpt.Collection
