import Mpt.Config.Stores

/-! # Assignments that fail

`mpt_node_assign` follows the elements of a path as far as they are there, and makes the
missing ones one after the other.  What was made stays when it fails at one of them.
-/

namespace Mpt.Config

/-- A path element as `mpt_path_next` gives it: its length is an `int`, and one below zero ends
    the loops over a path. -/
def pathElement (name : Name) : Option Name :=
  let clen := name.length % 2 ^ 32
  if clen < 2 ^ 31 then some (name.take clen) else none

/-- Which requests for memory succeed: those for new nodes, and those for identifiers that do not
    fit into their nodes. -/
structure Memory where
  node : Nat → Bool
  ident : Nat → Bool

/-- The room for an identifier in the node that `mpt_node_new` makes. -/
def identRoom (clen : Nat) : Nat :=
  let len := clen + 40
  let size := if 64 < len ∧ len ≤ 256 then if len ≤ 128 then 128 else 256 else 64
  size - 44

/-- `mpt_node_new` and `mpt_identifier_set` for the `k`-th new node, where the length with the
    terminator is not above that of an `int`. -/
def Memory.makes (m : Memory) (k : Nat) (name : Name) : Bool :=
  m.node k && decide (name.length < nameLimit) &&
    (decide (name.length + 1 ≤ identRoom name.length) || m.ident k)

/-- The metatypes and what can be asked of them.  An operation that fails leaves the metatype as
    it is. -/
structure Metatypes (V Val : Type) where
  /-- `mpt_object_set_value`, for those that are objects -/
  object : V → Option (Option Val → Option V)
  /-- `assign`, for those that are configurations -/
  config : V → Option (Option Val → Option V)
  /-- `reset`, for those that are iterators -/
  reset : V → Option V
  /-- `mpt_metatype_default` -/
  default_ : V
  /-- `mpt_meta_new` -/
  new : Val → Option V

variable {V Val : Type} (t : Metatypes V Val)

/-- The end of `mpt_meta_set`, with a new metatype: the metatype of the node, and whether the result
    is no error.  `failed` is the result of a configuration that was tried before. -/
def Metatypes.renew (old : Option V) (failed : Bool) : (val : Option Val) → Option V × Bool
  | none =>
      match old.bind t.reset with
      -- the result is still that of the configuration
      | some v => (some v, !failed)
      | none => (some t.default_, true)
  | some val =>
      match t.new val with
      | none => (old, false)
      | some v => (some v, true)

/-- `mpt_meta_set` from where the configuration interface is tried. -/
def Metatypes.setConfig (old : Option V) (val : Option Val) : Option V × Bool :=
  match old.bind t.config with
  | none => t.renew old false val
  | some assign =>
      match assign val with
      | some v => (some v, true)
      | none => t.renew old true val

/-- `mpt_meta_set`: the metatype of the node, and whether the result is no error. -/
def Metatypes.set (old : Option V) (val : Option Val) : Option V × Bool :=
  match old.bind t.object with
  | none => t.setConfig old val
  | some assign =>
      match assign val with
      | some v => (some v, true)
      | none => if val.isSome then (old, false) else t.setConfig old val

/-- The metatype for a new node: none without a value. -/
def Metatypes.make (val : Option Val) : Option (Option V) :=
  match val with
  | none => some none
  | some val => (t.new val).map some

/-- The loop of `mpt_node_assign`, when `k` nodes were made before. -/
def assignCreate (m : Memory) (mt : Option V) (k : Nat) :
    (path : List Name) → (base : List (Node V)) → List (Node V) × Bool
  | [], base => (base, false)
  | name :: path, base =>
      match pathElement name with
      | none => (base, false)
      | some name =>
          if m.makes k name then
            match path with
            | [] => (base ++ [⟨name, mt, []⟩], true)
            | _ :: _ =>
                let (children, done) := assignCreate m mt (k + 1) path []
                (base ++ [⟨name, none, children⟩], done)
          else
            (base, false)

/-- `mpt_node_assign` from where the metatype is made. -/
def assignMissing (m : Memory) (val : Option Val) (path : List Name) (base : List (Node V)) :
    List (Node V) × Bool :=
  match t.make val with
  | none => (base, false)
  | some mt => assignCreate m mt 0 path base

/-- The missing elements are made below a node. -/
def assignBelow (m : Memory) (val : Option Val) (path : List Name) (node : Node V) : Node V × Bool :=
  let (children, done) := assignMissing t m val path node.children
  ({ node with children := children }, done)

/-- The value of a node is set. -/
def assignHere (val : Option Val) (node : Node V) : Node V × Bool :=
  let (value, done) := t.set node.value val
  ({ node with value := value }, done)

/-- `mpt_node_assign` when `mpt_node_query` has come to a node. -/
def assignFrom (m : Memory) (val : Option Val) : (path : List Name) → Node V → Node V × Bool
  | [], node => assignHere t val node
  | name :: path, node =>
      match node.children with
      | [] => assignBelow t m val (name :: path) node
      | child :: children =>
          match pathElement name with
          | none =>
              -- the element is skipped
              match path with
              | [] => assignHere t val node
              | _ :: _ => assignBelow t m val path node
          | some key =>
              match (child :: children).findIdx? fun node => node.name = key with
              | none => assignBelow t m val (name :: path) node
              | some i =>
                  match (child :: children)[i]? with
                  | none => (node, false)
                  | some found =>
                      let (found, done) := assignFrom m val path found
                      ({ node with children := (child :: children).set i found }, done)

/-- `mpt_node_assign` -/
def nodeAssignAt (m : Memory) (val : Option Val) (path : List Name) (base : List (Node V)) :
    List (Node V) × Bool :=
  match path, base with
  | [], base => assignMissing t m val [] base
  | path, [] => assignMissing t m val path []
  | name :: path, node :: nodes =>
      match pathElement name with
      | none => assignMissing t m val path (node :: nodes)
      | some key =>
          match (node :: nodes).findIdx? fun node => node.name = key with
          | none => assignMissing t m val (name :: path) (node :: nodes)
          | some i =>
              match (node :: nodes)[i]? with
              | none => (node :: nodes, false)
              | some found =>
                  let (found, done) := assignFrom t m val path found
                  ((node :: nodes).set i found, done)

/-! ## What is missing -/

/-- Where a path leads: to elements that are not there, or to a value that is set. -/
inductive Leads (V : Type) where
  | missing (rest : List Name)
  | value (old : Option V)

/-- Where a path leads from a node on. -/
def leadsFrom : (path : List Name) → Node V → Leads V
  | [], node => .value node.value
  | name :: path, node =>
      match node.children with
      | [] => .missing (name :: path)
      | child :: children =>
          match pathElement name with
          | none =>
              match path with
              | [] => .value node.value
              | _ :: _ => .missing path
          | some key =>
              match (child :: children).find? fun node => node.name = key with
              | none => .missing (name :: path)
              | some found => leadsFrom path found

/-- Where a path leads. -/
def leads (path : List Name) (base : List (Node V)) : Leads V :=
  match path, base with
  | [], _ => .missing []
  | path, [] => .missing path
  | name :: path, node :: nodes =>
      match pathElement name with
      | none => .missing path
      | some key =>
          match (node :: nodes).find? fun node => node.name = key with
          | none => .missing (name :: path)
          | some found => leadsFrom path found

/-- How many of the missing elements can be made, one after the other. -/
def Memory.made (m : Memory) (k : Nat) : List Name → Nat
  | [] => 0
  | name :: path =>
      match pathElement name with
      | none => 0
      | some name => if m.makes k name then m.made (k + 1) path + 1 else 0

/-- Of the elements that are missing, all can be made or not even the first. -/
def AllOrNone (m : Memory) (rest : List Name) : Prop := m.made 0 rest = 0 ∨ m.made 0 rest = rest.length

/-- Without a value a metatype is reset behind a configuration that failed, and is another one
    then. -/
def Metatypes.Spoils (old : Option V) (val : Option Val) : Prop :=
  val = none ∧ ∃ v assign v', old = some v ∧ t.config v = some assign ∧ assign none = none ∧
    (∀ property, t.object v = some property → property none = none) ∧ t.reset v = some v' ∧ v' ≠ v

/-- The assignment fails before anything is made or reset, or not at all. -/
def Undone (m : Memory) (val : Option Val) : Leads V → Prop
  | .missing rest => t.make val = none ∨ AllOrNone m rest
  | .value old => ¬ t.Spoils old val

variable {t} {m : Memory} {val : Option Val} {mt : Option V} {k : Nat} {path : List Name}
  {base : List (Node V)} {node : Node V}

/-- The loop succeeds when all elements can be made. -/
theorem assignCreate_done (m : Memory) (mt : Option V) (k : Nat) (path : List Name)
    (base : List (Node V)) :
    (assignCreate m mt k path base).2 = true ↔ path ≠ [] ∧ m.made k path = path.length := by
  induction path generalizing k base with
  | nil => simp [assignCreate]
  | cons name path ih =>
      unfold assignCreate Memory.made
      cases pathElement name with
      | none => simp
      | some key =>
          by_cases makes : m.makes k key = true
          · simp only [makes, if_true]
            cases path with
            | nil => simp [Memory.made]
            | cons next path =>
                have inner := ih (k + 1) []
                simp only [List.length_cons] at inner ⊢
                rw [inner]
                simp
          · simp [makes]

/-- It leaves the list as it is only when the first one cannot be made. -/
theorem assignCreate_same (m : Memory) (mt : Option V) (k : Nat) (path : List Name)
    (base : List (Node V)) : (assignCreate m mt k path base).1 = base ↔ m.made k path = 0 := by
  cases path with
  | nil => simp [assignCreate, Memory.made]
  | cons name path =>
      unfold assignCreate Memory.made
      cases pathElement name with
      | none => simp
      | some key =>
          by_cases makes : m.makes k key = true
          · simp only [makes, if_true]
            cases path <;> simp
          · simp [makes]

/-- What is left of a list when the missing elements cannot be made. -/
theorem assignMissing_fails (path : List Name) (base : List (Node V)) :
    ((assignMissing t m val path base).2 = false → (assignMissing t m val path base).1 = base) ↔
      t.make val = none ∨ AllOrNone m path := by
  unfold assignMissing AllOrNone
  cases make : t.make val with
  | none => simp
  | some mt =>
      have done := assignCreate_done m mt 0 path base
      have same := assignCreate_same m mt 0 path base
      simp only [same, reduceCtorEq, false_or]
      constructor
      · intro unchanged
        by_cases complete : (assignCreate m mt 0 path base).2 = true
        · exact .inr (done.mp complete).2
        · exact .inl (unchanged (by simpa using complete))
      · intro all failed
        refine all.elim id fun complete => ?_
        cases path with
        | nil => rfl
        | cons name path =>
            have success := done.mpr ⟨List.cons_ne_nil _ _, complete⟩
            rw [failed] at success
            cases success

theorem assignBelow_fails (path : List Name) (node : Node V) :
    ((assignBelow t m val path node).2 = false → (assignBelow t m val path node).1 = node) ↔
      t.make val = none ∨ AllOrNone m path := by
  rw [← assignMissing_fails path node.children]
  unfold assignBelow
  constructor
  · intro unchanged failed
    exact congrArg Node.children (unchanged failed)
  · intro unchanged failed
    obtain ⟨name, value, children⟩ := node
    exact congrArg (Node.mk name value) (unchanged failed)

/-- Without room for a new metatype the old one stays. -/
theorem renew_some (old : Option V) (result : Bool) (val : Val)
    (failed : (t.renew old result (some val)).2 = false) :
    (t.renew old result (some val)).1 = old := by
  simp only [Metatypes.renew] at failed ⊢
  cases new : t.new val with
  | none => rfl
  | some v =>
      simp only [new] at failed
      cases failed

/-- Without a value the result is an error only if one came from the configuration. -/
theorem renew_none (v : V) (result : Bool) :
    ((t.renew (some v) result none).2 = false → (t.renew (some v) result none).1 = some v) ↔
      ¬ (result = true ∧ ∃ v', t.reset v = some v' ∧ v' ≠ v) := by
  simp only [Metatypes.renew, Option.bind_some]
  cases found : t.reset v with
  | none => simp
  | some v' => simp

theorem setConfig_some (old : Option V) (val : Val)
    (failed : (t.setConfig old (some val)).2 = false) : (t.setConfig old (some val)).1 = old := by
  unfold Metatypes.setConfig at failed ⊢
  cases found : old.bind t.config with
  | none =>
      simp only [found] at failed
      exact renew_some old false val failed
  | some assign =>
      simp only [found] at failed ⊢
      cases assigned : assign (some val) with
      | none =>
          simp only [assigned] at failed
          exact renew_some old true val failed
      | some v =>
          simp only [assigned] at failed
          cases failed

theorem setConfig_none (v : V) :
    ((t.setConfig (some v) none).2 = false → (t.setConfig (some v) none).1 = some v) ↔
      ¬ ∃ assign v', t.config v = some assign ∧ assign none = none ∧ t.reset v = some v' ∧
        v' ≠ v := by
  unfold Metatypes.setConfig
  cases found : t.config v with
  | none => simpa [found] using renew_none v false
  | some assign =>
      cases assigned : assign none with
      | none => simpa [found, assigned] using renew_none v true
      | some v' => simp [found, assigned]

/-- A value that could not be set is another one only if it was reset. -/
theorem set_fails (old : Option V) (val : Option Val) :
    ((t.set old val).2 = false → (t.set old val).1 = old) ↔ ¬ t.Spoils old val := by
  unfold Metatypes.set Metatypes.Spoils
  cases val with
  | some val =>
      refine iff_of_true (fun failed => ?_) (by simp)
      cases found : old.bind t.object with
      | none =>
          simp only [found] at failed
          exact setConfig_some old val failed
      | some property =>
          simp only [found] at failed ⊢
          cases assigned : property (some val) with
          | none => simp
          | some v =>
              simp only [assigned] at failed
              cases failed
  | none =>
      cases old with
      | none => simp [Metatypes.setConfig, Metatypes.renew]
      | some v =>
          cases found : t.object v with
          | none => simpa [found] using setConfig_none v
          | some property =>
              cases assigned : property none with
              | none => simpa [found, assigned] using setConfig_none v
              | some v' => simp [found, assigned]

theorem assignHere_fails (val : Option Val) (node : Node V) :
    ((assignHere t val node).2 = false → (assignHere t val node).1 = node) ↔
      ¬ t.Spoils node.value val := by
  rw [← set_fails node.value val]
  obtain ⟨name, value, children⟩ := node
  simp [assignHere]

/-- The search for a node and its position. -/
theorem findIdx_find (key : Name) (nodes : List (Node V)) :
    match nodes.findIdx? (fun node => node.name = key) with
    | none => nodes.find? (fun node => node.name = key) = none
    | some i => ∃ found, nodes[i]? = some found ∧
        nodes.find? (fun node => node.name = key) = some found := by
  induction nodes with
  | nil => simp
  | cons node nodes ih =>
      rw [List.findIdx?_cons, List.find?_cons]
      by_cases here : node.name = key
      · simp [here]
      · simp only [here, decide_false, Bool.false_eq_true, if_false]
        cases position : nodes.findIdx? (fun node => node.name = key) with
        | none => simpa [position] using ih
        | some i => simpa [position] using ih

/-- A list in which one element is set is the same when the element is. -/
theorem set_same {nodes : List (Node V)} {i : Nat} {found new : Node V}
    (here : nodes[i]? = some found) : nodes.set i new = nodes ↔ new = found := by
  obtain ⟨inside, rfl⟩ := List.getElem?_eq_some_iff.mp here
  constructor
  · intro same
    have at_i := congrArg (·[i]?) same
    simpa [inside] using at_i
  · rintro rfl
    exact List.set_getElem_self inside

/-- `mpt_node_assign` from a node on. -/
theorem assignFrom_fails (path : List Name) (node : Node V) :
    ((assignFrom t m val path node).2 = false → (assignFrom t m val path node).1 = node) ↔
      Undone t m val (leadsFrom path node) := by
  induction path generalizing node with
  | nil => exact assignHere_fails val node
  | cons name path ih =>
      obtain ⟨nodeName, value, children⟩ := node
      unfold assignFrom leadsFrom
      cases children with
      | nil => exact assignBelow_fails (name :: path) ⟨nodeName, value, []⟩
      | cons child children =>
          cases pathElement name with
          | none =>
              cases path with
              | nil => exact assignHere_fails val ⟨nodeName, value, child :: children⟩
              | cons next path =>
                  exact assignBelow_fails (next :: path) ⟨nodeName, value, child :: children⟩
          | some key =>
              have search := findIdx_find key (child :: children)
              simp only
              cases position : (child :: children).findIdx? (fun node => node.name = key) with
              | none =>
                  simp only [position] at search
                  simp only [search]
                  exact assignBelow_fails (name :: path) ⟨nodeName, value, child :: children⟩
              | some i =>
                  simp only [position] at search
                  obtain ⟨found, here, first⟩ := search
                  simp only [here, first]
                  rw [← ih found]
                  simp only [Node.mk.injEq, true_and, set_same here]

/-- Metatypes that hold a number. -/
def plainMetatypes : Metatypes Nat Nat where
  object := fun _ => none
  config := fun _ => none
  reset := fun _ => none
  default_ := 0
  new := some

/-- A name of 65535 characters is refused below the new node. -/
theorem nodeAssignAt_refused {name : Name} (length : name.length = 2 ^ 16 - 1) :
    nodeAssignAt plainMetatypes ⟨fun _ => true, fun _ => true⟩ (some 7) [['a'], name] [] =
      ([⟨['a'], none, []⟩], false) := by
  have long : pathElement name = some name := by
    simp only [pathElement, length]
    rw [if_pos (by omega), List.take_of_length_le (by rw [length]; omega)]
  have refused (k : Nat) : Memory.makes ⟨fun _ => true, fun _ => true⟩ k name = false := by
    have limit : ¬ (2 ^ 16 - 1 < nameLimit) := by unfold nameLimit; omega
    simp only [Memory.makes, length, limit, decide_false, Bool.and_false, Bool.false_and]
  have short : pathElement ['a'] = some ['a'] := rfl
  have made : Memory.makes ⟨fun _ => true, fun _ => true⟩ 0 ['a'] = true := rfl
  simp [nodeAssignAt, assignMissing, Metatypes.make, plainMetatypes, assignCreate, long, short,
    refused, made]

end Mpt.Config
