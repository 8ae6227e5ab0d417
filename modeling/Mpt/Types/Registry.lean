import Mpt.Core

/-! # The type registry

Types are known by numbers.  Those of the library are in fixed tables; types that are
added are kept in four stores, one for each kind.  Memory for them is always granted.
-/

namespace Mpt.Types

/-- `struct type_traits`; functions are known by their addresses. -/
structure Traits where
  init : Nat
  fini : Nat
  size : Nat
  deriving Repr, DecidableEq

/-- A name, without its end. -/
abbrev Name := List Char

/-- `struct named_traits` -/
structure Named where
  traits : Traits
  name : Option Name
  type : Nat
  deriving Repr, DecidableEq

/-- What the library does not define in the registry itself. -/
structure Env where
  /-- the traits of the types from `TypeIdentifier` to `TypeCommand`, by their number -/
  managed : (type : Nat) → Traits
  /-- what is found in the memory for the traits of a builtin interface -/
  found : (i : Nat) → Traits

def sizeLimit : Nat := 2 ^ 64

/-- `pointer_traits` -/
def pointerTraits : Traits := ⟨0, 0, 8⟩

/-- `core_sizes`: types and sizes. -/
def coreSizes : List (Nat × Nat) :=
  [(0x1, 4), (0x4, 8), (0x5, 8), (0x9, 8), (0x8, 8), (0x18, 4), (0x19, 16), (0x1a, 48)]

/-- `scalar_sizes` -/
def scalarSizes : List (Nat × Nat) :=
  [(0x63, 1), (0x62, 1), (0x79, 1), (0x6e, 2), (0x71, 2), (0x69, 4), (0x75, 4), (0x78, 8), (0x74, 8),
    (0x66, 4), (0x64, 8), (0x65, 16), (0x73, 8)]

/-- `core_interfaces` -/
def coreInterfaces : List (Name × Nat) :=
  [(['c', 'o', 'n', 'v', 'e', 'r', 't', 'a', 'b', 'l', 'e'], 0x80),
    (['l', 'o', 'g', 'g', 'e', 'r'], 0x81), (['r', 'e', 'p', 'l', 'y'], 0x82),
    (['o', 'u', 't', 'p', 'u', 't'], 0x83), (['o', 'b', 'j', 'e', 'c', 't'], 0x84),
    (['c', 'o', 'n', 'f', 'i', 'g'], 0x85), (['i', 't', 'e', 'r', 'a', 't', 'o', 'r'], 0x86),
    (['c', 'o', 'l', 'l', 'e', 'c', 't', 'i', 'o', 'n'], 0x87),
    (['s', 'o', 'l', 'v', 'e', 'r'], 0x88)]

/-- The size of a type in one of the tables that are made from a list of sizes. -/
def tableSize (sizes : List (Nat × Nat)) (type : Nat) : Option Traits :=
  (sizes.find? fun p => p.1 = type).map fun p => ⟨0, 0, p.2⟩

/-- All stores.  Those of interfaces and metatypes are filled when they are used first. -/
structure Registry where
  /-- `interface_types`, and how many of its elements are used -/
  interfaces : Option (List (Option Named))
  interfacePos : Nat
  /-- `meta_types`: chunks of up to 30 entries -/
  metas : Option (List (List Named))
  /-- `dynamic_types` up to `dynamic_pos` -/
  dynamic : List Traits
  /-- `generic_types`: chunks of up to 30 entries -/
  generic : List (List Traits)

/-- Nothing is used so far. -/
def Registry.start : Registry := ⟨none, 0, none, [], []⟩

/-- `_meta_init` -/
def metaInit : List (List Named) :=
  [[⟨pointerTraits, some ['m', 'e', 't', 'a', 't', 'y', 'p', 'e'], 0x100⟩]]

/-- `_interfaces_init`: of the traits, `sizeof(elem->traits)` bytes are copied, which is
    the first pointer. -/
def interfacesInit (env : Env) : List (Option Named) :=
  (List.range 64).map fun i =>
    coreInterfaces[i]?.map fun p =>
      ⟨{ env.found i with init := pointerTraits.init }, some p.1, p.2⟩

/-- The interfaces, which are there from now on. -/
def Registry.useInterfaces (env : Env) (r : Registry) : Registry :=
  { r with
    interfaces := some (r.interfaces.getD (interfacesInit env))
    interfacePos := if r.interfaces.isSome then r.interfacePos else 16 }

/-- The metatypes, which are there from now on. -/
def Registry.useMetas (r : Registry) : Registry := { r with metas := some (r.metas.getD metaInit) }

/-- `mpt_interface_traits` -/
def interfaceTraits (env : Env) (r : Registry) (type : Nat) : Registry × Option Named :=
  if 0xbf < type ∨ type < 0x80 then
    (r, none)
  else
    let r := r.useInterfaces env
    let pos := type - 0x80
    if r.interfacePos < pos then (r, none) else (r, ((r.interfaces.getD [])[pos]?).join)

/-- The loop of `mpt_metatype_traits` -/
def metaFind : List (List Named) → (pos : Int) → Option Named
  | [], _ => none
  | chunk :: rest, pos =>
      if pos < chunk.length then
        if pos < 0 then none else chunk[pos.toNat]?
      else
        metaFind rest (pos - 30)

/-- `mpt_metatype_traits` -/
def metatypeTraits (r : Registry) (type : Nat) : Registry × Option Named :=
  if 0x7ff < type ∨ type < 0x100 then
    (r, none)
  else
    let r := r.useMetas
    (r, metaFind (r.metas.getD []) (type - 0x100 : Nat))

/-- The loop of `mpt_type_traits` over the chunks; numbers are unsigned. -/
def genericFind : List (List Traits) → (type : Nat) → Option Traits
  | [], _ => none
  | chunk :: rest, type =>
      if type < chunk.length then chunk[type]? else genericFind rest ((type + sizeLimit - 30) % sizeLimit)

/-- `mpt_type_traits` -/
def typeTraits (env : Env) (r : Registry) (type : Nat) : Registry × Option Traits :=
  -- bad type value
  if type = 0 then
    (r, none)
  -- builtin scalar types
  else if type < 0x20 then
    (r, tableSize coreSizes type)
  else if 0x60 ≤ type ∧ type ≤ 0x7a then
    (r, tableSize scalarSizes type)
  -- generic/typed vector
  else if 0x40 ≤ type ∧ type < 0x5a then
    (r, (tableSize scalarSizes (type + 0x20)).map fun _ => ⟨0, 0, 16⟩)
  -- interface type
  else if 0x80 ≤ type ∧ type ≤ 0xbf then
    let (r, elem) := interfaceTraits env r type
    (r, elem.map Named.traits)
  else if 0xc0 ≤ type ∧ type ≤ 0xff then
    (r, r.dynamic[type - 0xc0]?)
  else if 0x800 ≤ type ∧ type ≤ 0x803 then
    (r, some (env.managed type))
  else if 0x100 ≤ type ∧ type ≤ 0x7ff then
    let (r, elem) := metatypeTraits r type
    (r, elem.map Named.traits)
  else
    (r, genericFind r.generic ((type + sizeLimit - 0x900) % sizeLimit))

/-- The first entry with a property, in the order of both searches of `mpt_named_traits`. -/
def namedFind (env : Env) (r : Registry) (p : Name → Bool) : Registry × Option Named :=
  let r := r.useMetas
  match (r.metas.getD []).flatten.find? fun elem => elem.name.any p with
  | some elem => (r, some elem)
  | none =>
      let r := r.useInterfaces env
      (r, (((r.interfaces.getD []).take r.interfacePos).filterMap id).find? fun elem =>
        elem.name.any p)

/-- The shortnames that `mpt_named_traits` resolves. -/
def resolve (name : Name) : Name :=
  if name = ['l', 'o', 'g'] then ['l', 'o', 'g', 'g', 'e', 'r']
  else if name = ['i', 't', 'e', 'r'] then ['i', 't', 'e', 'r', 'a', 't', 'o', 'r']
  else if name = ['o', 'u', 't'] then ['o', 'u', 't', 'p', 'u', 't']
  else if name = ['m', 'e', 't', 'a'] then ['m', 'e', 't', 'a', 't', 'y', 'p', 'e']
  else name

/-- `mpt_named_traits` -/
def namedTraits (env : Env) (r : Registry) (name : Option Name) (len : Int) :
    Registry × Option Named :=
  match name with
  | none => (r, none)
  | some name =>
      if len = 0 ∨ name = [] then
        (r, none)
      -- exact length match for names
      else if 0 ≤ len then
        namedFind env r fun elem => len = elem.length ∧ name.take len.toNat = elem.take len.toNat
      -- full names without length limit
      else
        namedFind env r fun elem => resolve name = elem

/-- The search for a chunk with room, and the number of the new entry.  The first chunk is
    made when there is none. -/
def chunkAdd {α : Type} (max : Nat) (entry : Nat → α) : List (List α) → (pos : Nat) →
    Option (List (List α) × Nat)
  | [], pos => if max < pos then none else some ([[entry pos]], pos)
  | chunk :: rest, pos =>
      if chunk.length = 30 then
        (chunkAdd max entry rest (pos + 30)).map fun (rest, pos) => (chunk :: rest, pos)
      else if max < pos + chunk.length then
        none
      else
        some ((chunk ++ [entry (pos + chunk.length)]) :: rest, pos + chunk.length)

/-- `mpt_type_add` -/
def typeAdd (r : Registry) (traits : Option Traits) : Registry × Int :=
  match traits with
  | none => (r, -1)
  | some traits =>
      -- must have valid size
      if traits.size = 0 then
        (r, -1)
      else
        match chunkAdd 0xfff (fun _ => traits) r.generic 0x900 with
        | none => (r, -3)
        | some (generic, pos) => ({ r with generic := generic }, pos)

/-- `mpt_type_basic_add` -/
def typeBasicAdd (r : Registry) (size : Nat) : Registry × Int :=
  let size := if size = 0 then 8 else size
  if r.dynamic.length < 64 then
    ({ r with dynamic := r.dynamic ++ [⟨0, 0, size⟩] }, 0xc0 + r.dynamic.length)
  else
    (r, -0x11)

/-- A name for a new entry that is too short or already there. -/
def refused (elems : List Named) (name : Option Name) : Bool :=
  match name with
  | none => false
  | some name => name.length < 4 ∨ elems.any fun elem => elem.name = some name

/-- `mpt_type_metatype_add` -/
def typeMetatypeAdd (r : Registry) (name : Option Name) : Registry × Option Named :=
  let r := r.useMetas
  let metas := r.metas.getD []
  if refused metas.flatten name then
    (r, none)
  else
    match chunkAdd 0x7ff (fun pos => Named.mk pointerTraits name pos) metas 0x100 with
    | none => (r, none)
    | some (metas, pos) => ({ r with metas := some metas }, some ⟨pointerTraits, name, pos⟩)

/-- `mpt_type_interface_add` -/
def typeInterfaceAdd (env : Env) (r : Registry) (name : Option Name) : Registry × Option Named :=
  if 64 ≤ r.interfacePos then
    (r, none)
  else
    let r := r.useInterfaces env
    let slots := r.interfaces.getD []
    if refused ((slots.take r.interfacePos).filterMap id) name then
      (r, none)
    else
      let elem := Named.mk pointerTraits name (0x80 + r.interfacePos)
      ({ r with
        interfaces := some (slots.set r.interfacePos (some elem))
        interfacePos := r.interfacePos + 1 }, some elem)

end Mpt.Types
