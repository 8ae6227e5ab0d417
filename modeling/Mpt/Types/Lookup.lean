import Mpt.Types.Registry
import Mathlib.Data.List.Nodup

/-! # What the type registry tells

The four stores keep all entries in the order of their registration, and the numbers of
each kind are consecutive.
-/

namespace Mpt.Types

/-- All chunks but the last are full. -/
def Packed {α : Type} : List (List α) → Prop
  | [] => True
  | chunk :: rest => chunk.length ≤ 30 ∧ (chunk.length < 30 → rest = []) ∧ Packed rest

section Chunks

variable {α : Type}

theorem chunkAdd_eq (max : Nat) (entry : Nat → α) {chunks : List (List α)} (packed : Packed chunks)
    (pos : Nat) :
    if max < pos + chunks.flatten.length then chunkAdd max entry chunks pos = none
    else ∃ chunks', chunkAdd max entry chunks pos = some (chunks', pos + chunks.flatten.length) ∧
      Packed chunks' ∧ chunks'.flatten = chunks.flatten ++ [entry (pos + chunks.flatten.length)] := by
  induction chunks generalizing pos with
  | nil =>
      simp only [List.flatten_nil, List.length_nil, Nat.add_zero, List.nil_append]
      split
      · next large => rw [chunkAdd, if_pos large]
      · next fits =>
        refine ⟨[[entry pos]], ?_, ⟨by simp, fun _ => rfl, trivial⟩, rfl⟩
        rw [chunkAdd, if_neg fits]
  | cons chunk rest ih =>
      obtain ⟨short, last, packed⟩ := packed
      by_cases full : chunk.length = 30
      · have inner := ih packed (pos + 30)
        have count : pos + (chunk :: rest).flatten.length = pos + 30 + rest.flatten.length := by
          rw [List.flatten_cons, List.length_append, full]
          omega
        rw [count]
        split
        · next large =>
          rw [if_pos large] at inner
          rw [chunkAdd, if_pos full, inner]
          rfl
        · next fits =>
          rw [if_neg fits] at inner
          obtain ⟨rest', run, packed', flat⟩ := inner
          refine ⟨chunk :: rest', ?_, ⟨short, fun less => absurd full (by omega), packed'⟩, ?_⟩
          · rw [chunkAdd, if_pos full, run]
            rfl
          · rw [List.flatten_cons, flat, List.flatten_cons, List.append_assoc]
      · obtain rfl := last (by omega)
        have flat : [chunk].flatten = chunk := by simp
        rw [flat]
        split
        · next large => rw [chunkAdd, if_neg full, if_pos large]
        · next fits =>
          refine ⟨[chunk ++ [entry (pos + chunk.length)]], ?_, ⟨?_, fun _ => rfl, trivial⟩, by simp⟩
          · rw [chunkAdd, if_neg full, if_neg fits]
          · rw [List.length_append, List.length_singleton]
            omega

end Chunks

theorem metaFind_eq {chunks : List (List Named)} (packed : Packed chunks) (pos : Nat) :
    metaFind chunks pos = chunks.flatten[pos]? := by
  induction chunks generalizing pos with
  | nil => simp [metaFind]
  | cons chunk rest ih =>
      obtain ⟨short, last, packed⟩ := packed
      unfold metaFind
      rw [List.flatten_cons]
      by_cases here : (pos : Int) < chunk.length
      · rw [if_pos here, if_neg (by omega), Int.toNat_natCast, List.getElem?_append_left (by omega)]
      · rw [if_neg here, List.getElem?_append_right (by omega)]
        by_cases full : chunk.length = 30
        · have next : (pos : Int) - 30 = (pos - 30 : Nat) := by omega
          rw [next, ih packed, full]
        · obtain rfl := last (by omega)
          simp [metaFind]

theorem genericFind_eq {chunks : List (List Traits)} (packed : Packed chunks) {type : Nat}
    (small : type < sizeLimit) : genericFind chunks type = chunks.flatten[type]? := by
  induction chunks generalizing type with
  | nil => simp [genericFind]
  | cons chunk rest ih =>
      obtain ⟨short, last, packed⟩ := packed
      unfold genericFind
      rw [List.flatten_cons]
      by_cases here : type < chunk.length
      · rw [if_pos here, List.getElem?_append_left here]
      · rw [if_neg here, List.getElem?_append_right (by omega)]
        by_cases full : chunk.length = 30
        · have next : (type + sizeLimit - 30) % sizeLimit = type - 30 := by
            unfold sizeLimit at *
            omega
          rw [next, ih packed (by omega), full]
        · obtain rfl := last (by omega)
          simp [genericFind]

/-! ## The log of a run -/

/-- The kinds of types that are added. -/
inductive Kind where
  | generic
  | basic
  | interface_
  | metatype
  deriving DecidableEq

/-- The first number of a kind, and how many there are. -/
def Kind.base : Kind → Nat
  | generic => 0x900
  | basic => 0xc0
  | interface_ => 0x90
  | metatype => 0x101

def Kind.count : Kind → Nat
  | generic => 0x700
  | basic => 0x40
  | interface_ => 0x30
  | metatype => 0x6ff

/-- One successful registration. -/
structure Entry where
  id : Nat
  traits : Traits
  kind : Kind
  name : Option Name
  deriving DecidableEq

def Entry.named (e : Entry) : Named := ⟨e.traits, e.name, e.id⟩

/-- One call: a registration, or any lookup. -/
inductive Op where
  | add (traits : Option Traits)
  | basicAdd (size : Nat)
  | metatypeAdd (name : Option Name)
  | interfaceAdd (name : Option Name)
  | traits (type : Nat)
  | named (name : Option Name) (len : Int)
  | interface_ (type : Nat)
  | metatype (type : Nat)

/-- The registry after a call, and what it registered. -/
def Op.run (env : Env) (r : Registry) : Op → Registry × Option Entry
  | .add given =>
      let (r, ret) := typeAdd r given
      (r, if 0 ≤ ret then given.map fun t => ⟨ret.toNat, t, .generic, none⟩ else none)
  | .basicAdd size =>
      let (r, ret) := typeBasicAdd r size
      (r, if 0 ≤ ret then some ⟨ret.toNat, ⟨0, 0, if size = 0 then 8 else size⟩, .basic, none⟩ else none)
  | .metatypeAdd name =>
      let (r, elem) := typeMetatypeAdd r name
      (r, elem.map fun elem => ⟨elem.type, pointerTraits, .metatype, name⟩)
  | .interfaceAdd name =>
      let (r, elem) := typeInterfaceAdd env r name
      (r, elem.map fun elem => ⟨elem.type, pointerTraits, .interface_, name⟩)
  | .traits type => ((typeTraits env r type).1, none)
  | .named name len => ((namedTraits env r name len).1, none)
  | .interface_ type => ((interfaceTraits env r type).1, none)
  | .metatype type => ((metatypeTraits r type).1, none)

/-- The registry and the log after one more call. -/
def step (env : Env) (s : Registry × List Entry) (op : Op) : Registry × List Entry :=
  let (r, e) := op.run env s.1
  (r, s.2 ++ e.toList)

def runs (env : Env) (ops : List Op) : Registry × List Entry :=
  ops.foldl (step env) (.start, [])

/-- The entries of one kind. -/
def ofKind (kind : Kind) (log : List Entry) : List Entry := log.filter fun e => e.kind = kind

/-- The chunks of metatypes, whether they are in use or not. -/
def Registry.metaChunks (r : Registry) : List (List Named) := r.metas.getD metaInit

def Registry.slots (env : Env) (r : Registry) : List (Option Named) :=
  r.interfaces.getD (interfacesInit env)

def Registry.usedSlots (r : Registry) : Nat := if r.interfaces.isSome then r.interfacePos else 16

/-- The entry that is there from the beginning. -/
def metaBase : Named := ⟨pointerTraits, some ['m', 'e', 't', 'a', 't', 'y', 'p', 'e'], 0x100⟩

/-- Names of one kind are long enough, and none occurs twice. -/
structure Distinct (taken : List Name) (entries : List Entry) : Prop where
  long : ∀ e ∈ entries, ∀ name ∈ e.name, 4 ≤ name.length
  other : ∀ e ∈ entries, ∀ name ∈ e.name, name ∉ taken
  nodup : (entries.filterMap Entry.name).Nodup

/-- The stores have what the log has. -/
structure Kept (env : Env) (r : Registry) (log : List Entry) : Prop where
  metaPacked : Packed r.metaChunks
  metas : r.metaChunks.flatten = metaBase :: (ofKind .metatype log).map Entry.named
  slots : r.slots env = (interfacesInit env).take 16 ++
    ((ofKind .interface_ log).map fun e => some e.named) ++
      List.replicate (0x30 - (ofKind .interface_ log).length) none
  used : r.usedSlots = 16 + (ofKind .interface_ log).length
  unused : r.interfaces = none → r.interfacePos = 0
  dynamic : r.dynamic = (ofKind .basic log).map Entry.traits
  genericPacked : Packed r.generic
  generic : r.generic.flatten = (ofKind .generic log).map Entry.traits
  ids : ∀ kind i e, (ofKind kind log)[i]? = some e → e.id = kind.base + i
  count : ∀ kind, (ofKind kind log).length ≤ kind.count
  pointers : ∀ e ∈ log, e.kind = .metatype ∨ e.kind = .interface_ → e.traits = pointerTraits
  metaNames : Distinct [['m', 'e', 't', 'a', 't', 'y', 'p', 'e']] (ofKind .metatype log)
  names : Distinct (coreInterfaces.map Prod.fst) (ofKind .interface_ log)

variable {env : Env} {r r' : Registry} {log : List Entry} {e : Entry} {kind : Kind}

theorem ofKind_concat (kind : Kind) (log : List Entry) (e : Entry) :
    ofKind kind (log ++ [e]) = if e.kind = kind then ofKind kind log ++ [e] else ofKind kind log := by
  unfold ofKind
  rw [List.filter_append]
  by_cases same : e.kind = kind <;> simp [same]

/-- The entries of other kinds stay as they are. -/
theorem ofKind_other {kind other : Kind} {e : Entry} (same : e.kind = kind) (ne : other ≠ kind)
    (log : List Entry) : ofKind other (log ++ [e]) = ofKind other log := by
  rw [ofKind_concat, same, if_neg fun eq => ne eq.symm]

theorem useMetas_chunks (r : Registry) : r.useMetas.metas.getD [] = r.metaChunks := rfl

theorem useInterfaces_slots (env : Env) (r : Registry) :
    (r.useInterfaces env).interfaces.getD [] = r.slots env := rfl

/-- The stores, whether those of metatypes and interfaces are in use or not. -/
structure Same (env : Env) (r r' : Registry) : Prop where
  metas : r'.metaChunks = r.metaChunks
  slots : r'.slots env = r.slots env
  used : r'.usedSlots = r.usedSlots
  unused : (r.interfaces = none → r.interfacePos = 0) → r'.interfaces = none → r'.interfacePos = 0
  dynamic : r'.dynamic = r.dynamic
  generic : r'.generic = r.generic

theorem Same.refl (env : Env) (r : Registry) : Same env r r := ⟨rfl, rfl, rfl, id, rfl, rfl⟩

theorem Same.trans {r'' : Registry} (s : Same env r r') (s' : Same env r' r'') : Same env r r'' :=
  ⟨s'.metas.trans s.metas, s'.slots.trans s.slots, s'.used.trans s.used,
    fun unused => s'.unused (s.unused unused), s'.dynamic.trans s.dynamic,
    s'.generic.trans s.generic⟩

theorem same_useMetas (env : Env) (r : Registry) : Same env r r.useMetas :=
  ⟨rfl, rfl, rfl, id, rfl, rfl⟩

theorem same_useInterfaces (env : Env) (r : Registry) : Same env r (r.useInterfaces env) := by
  refine ⟨rfl, rfl, ?_, fun _ unset => absurd unset (by simp [Registry.useInterfaces]), rfl, rfl⟩
  unfold Registry.usedSlots Registry.useInterfaces
  simp

theorem same_namedFind (env : Env) (r : Registry) (p : Name → Bool) :
    Same env r (namedFind env r p).1 := by
  unfold namedFind
  simp only
  split
  · exact same_useMetas env r
  · exact (same_useMetas env r).trans (same_useInterfaces env _)

theorem same_namedTraits (env : Env) (r : Registry) (name : Option Name) (len : Int) :
    Same env r (namedTraits env r name len).1 := by
  unfold namedTraits
  split
  · exact .refl env r
  · split
    · exact .refl env r
    · split
      · exact same_namedFind env r _
      · exact same_namedFind env r _

theorem same_interfaceTraits (env : Env) (r : Registry) (type : Nat) :
    Same env r (interfaceTraits env r type).1 := by
  unfold interfaceTraits
  split
  · exact .refl env r
  · simp only
    split
    · exact same_useInterfaces env r
    · exact same_useInterfaces env r

theorem same_metatypeTraits (env : Env) (r : Registry) (type : Nat) :
    Same env r (metatypeTraits r type).1 := by
  unfold metatypeTraits
  split
  · exact .refl env r
  · exact same_useMetas env r

theorem same_typeTraits (env : Env) (r : Registry) (type : Nat) :
    Same env r (typeTraits env r type).1 := by
  unfold typeTraits
  split
  · exact .refl env r
  split
  · exact .refl env r
  split
  · exact .refl env r
  split
  · exact .refl env r
  split
  · exact same_interfaceTraits env r type
  split
  · exact .refl env r
  split
  · exact .refl env r
  split
  · exact same_metatypeTraits env r type
  · exact .refl env r

theorem Kept.same (kept : Kept env r log) (s : Same env r r') : Kept env r' log where
  metaPacked := s.metas ▸ kept.metaPacked
  metas := s.metas ▸ kept.metas
  slots := s.slots ▸ kept.slots
  used := s.used.trans kept.used
  unused := s.unused kept.unused
  dynamic := s.dynamic.trans kept.dynamic
  genericPacked := s.generic ▸ kept.genericPacked
  generic := s.generic ▸ kept.generic
  ids := kept.ids
  count := kept.count
  pointers := kept.pointers
  metaNames := kept.metaNames
  names := kept.names

theorem kept_start (env : Env) : Kept env .start [] where
  metaPacked := ⟨by decide, fun _ => rfl, trivial⟩
  metas := rfl
  slots := by
    show interfacesInit env = _
    have rest : (interfacesInit env).drop 16 = List.replicate 0x30 none := rfl
    conv_lhs => rw [← List.take_append_drop 16 (interfacesInit env), rest]
    simp [ofKind]
  used := rfl
  unused := fun _ => rfl
  dynamic := rfl
  genericPacked := trivial
  generic := rfl
  ids := fun _ _ _ found => by cases found
  count := fun _ => Nat.zero_le _
  pointers := fun _ mem => by cases mem
  metaNames := ⟨nofun, nofun, List.nodup_nil⟩
  names := ⟨nofun, nofun, List.nodup_nil⟩

/-- The numbers go on. -/
theorem Kept.ids_concat (kept : Kept env r log) (next : e.id = e.kind.base + (ofKind e.kind log).length)
    (kind : Kind) (i : Nat) (e' : Entry) (found : (ofKind kind (log ++ [e]))[i]? = some e') :
    e'.id = kind.base + i := by
  rw [ofKind_concat] at found
  split at found
  · next same =>
    subst same
    by_cases old : i < (ofKind e.kind log).length
    · rw [List.getElem?_append_left old] at found
      exact kept.ids _ i e' found
    · rw [List.getElem?_append_right (by omega)] at found
      obtain ⟨zero, eq⟩ := List.getElem?_eq_some_iff.mp found
      rw [← eq, List.getElem_singleton, next]
      simp only [List.length_singleton] at zero
      omega
  · exact kept.ids kind i e' found

theorem Kept.pointers_concat (kept : Kept env r log)
    (new : e.kind = .metatype ∨ e.kind = .interface_ → e.traits = pointerTraits) :
    ∀ e' ∈ log ++ [e], e'.kind = .metatype ∨ e'.kind = .interface_ → e'.traits = pointerTraits := by
  intro e' mem named
  rcases List.mem_append.mp mem with mem | mem
  · exact kept.pointers e' mem named
  · cases List.mem_singleton.mp mem
    exact new named

theorem Kept.count_concat (kept : Kept env r log) (room : (ofKind e.kind log).length < e.kind.count)
    (kind : Kind) : (ofKind kind (log ++ [e])).length ≤ kind.count := by
  rw [ofKind_concat]
  split
  · next same =>
    subst same
    rw [List.length_append]
    exact room
  · exact kept.count kind

theorem Distinct.concat {taken : List Name} {entries : List Entry} (d : Distinct taken entries)
    (long : ∀ name ∈ e.name, 4 ≤ name.length) (other : ∀ name ∈ e.name, name ∉ taken)
    (new : ∀ name ∈ e.name, ∀ old ∈ entries, old.name ≠ some name) :
    Distinct taken (entries ++ [e]) := by
  refine ⟨fun e' mem => ?_, fun e' mem => ?_, ?_⟩
  · rcases List.mem_append.mp mem with mem | mem
    · exact d.long e' mem
    · rw [List.mem_singleton.mp mem]
      exact long
  · rcases List.mem_append.mp mem with mem | mem
    · exact d.other e' mem
    · rw [List.mem_singleton.mp mem]
      exact other
  · rw [List.filterMap_append]
    cases name : e.name with
    | none => simpa [name] using d.nodup
    | some n =>
        have absent : n ∉ entries.filterMap Entry.name := by
          intro mem
          obtain ⟨old, mem, same⟩ := List.mem_filterMap.mp mem
          exact new n name old mem same
        have single : [e].filterMap Entry.name = [n] := by simp [name]
        rw [single]
        refine List.nodup_append.mpr ⟨d.nodup, List.nodup_singleton n, fun a mem b mem' => ?_⟩
        rintro rfl
        rw [List.mem_singleton.mp mem'] at mem
        exact absent mem

/-- What a call does to the stores: nothing, or there is one more entry. -/
def Does (env : Env) (r : Registry) (log : List Entry) : Registry × Option Entry → Prop
  | (r', none) => Same env r r'
  | (r', some e) => Kept env r' (log ++ [e]) ∧ e.id = e.kind.base + (ofKind e.kind log).length ∧
      (ofKind e.kind log).length < e.kind.count

theorem does_add (kept : Kept env r log) (given : Option Traits) :
    Does env r log (Op.run env r (.add given)) := by
  unfold Op.run typeAdd
  cases given with
  | none => exact .refl env r
  | some traits =>
      by_cases size : traits.size = 0
      · simp only [if_pos size]
        exact .refl env r
      · have added := chunkAdd_eq 0xfff (fun _ => traits) kept.genericPacked 0x900
        have count : r.generic.flatten.length = (ofKind .generic log).length := by
          rw [kept.generic, List.length_map]
        simp only [if_neg size]
        split at added
        · rw [added]
          exact .refl env r
        · next fits =>
          obtain ⟨generic, run, packed, flat⟩ := added
          rw [run]
          simp only [Int.toNat_natCast, Option.map_some, count]
          generalize new : (⟨0x900 + (ofKind .generic log).length, traits, .generic, none⟩ : Entry) = e
          have kind : e.kind = .generic := by rw [← new]
          have id : e.id = e.kind.base + (ofKind e.kind log).length := by
            rw [← new]
            rfl
          have room : (ofKind e.kind log).length < e.kind.count := by
            rw [kind]
            show _ < 0x700
            omega
          refine ⟨?_, id, room⟩
          refine ⟨kept.metaPacked, ?_, ?_, ?_, kept.unused, ?_, packed, ?_, kept.ids_concat id,
            kept.count_concat room, kept.pointers_concat fun named => ?_, ?_, ?_⟩
          · rw [ofKind_other kind (by decide)]
            exact kept.metas
          · rw [ofKind_other kind (by decide)]
            exact kept.slots
          · rw [ofKind_other kind (by decide)]
            exact kept.used
          · rw [ofKind_other kind (by decide)]
            exact kept.dynamic
          · rw [ofKind_concat, if_pos kind, List.map_append, ← kept.generic, flat, ← new]
            rfl
          · rw [kind] at named
            rcases named with named | named <;> cases named
          · rw [ofKind_other kind (by decide)]
            exact kept.metaNames
          · rw [ofKind_other kind (by decide)]
            exact kept.names

theorem does_basicAdd (kept : Kept env r log) (size : Nat) :
    Does env r log (Op.run env r (.basicAdd size)) := by
  have count : r.dynamic.length = (ofKind .basic log).length := by
    rw [kept.dynamic, List.length_map]
  unfold Op.run typeBasicAdd
  by_cases full : r.dynamic.length < 64
  · simp only [if_pos full]
    have positive : (0 : Int) ≤ 0xc0 + (r.dynamic.length : Int) := by omega
    have number : (0xc0 + (r.dynamic.length : Int)).toNat = 0xc0 + (ofKind .basic log).length := by
      omega
    rw [if_pos positive, number]
    generalize new : (⟨0xc0 + (ofKind .basic log).length, ⟨0, 0, if size = 0 then 8 else size⟩, .basic,
      none⟩ : Entry) = e
    have kind : e.kind = .basic := by rw [← new]
    have id : e.id = e.kind.base + (ofKind e.kind log).length := by
      rw [← new]
      rfl
    have room : (ofKind e.kind log).length < e.kind.count := by
      rw [kind]
      show _ < 0x40
      omega
    refine ⟨?_, id, room⟩
    refine ⟨kept.metaPacked, ?_, ?_, ?_, kept.unused, ?_, kept.genericPacked, ?_, kept.ids_concat id,
      kept.count_concat room, kept.pointers_concat fun named => ?_, ?_, ?_⟩
    · rw [ofKind_other kind (by decide)]
      exact kept.metas
    · rw [ofKind_other kind (by decide)]
      exact kept.slots
    · rw [ofKind_other kind (by decide)]
      exact kept.used
    · rw [ofKind_concat, if_pos kind, List.map_append, ← kept.dynamic, ← new]
      rfl
    · rw [ofKind_other kind (by decide)]
      exact kept.generic
    · rw [kind] at named
      rcases named with named | named <;> cases named
    · rw [ofKind_other kind (by decide)]
      exact kept.metaNames
    · rw [ofKind_other kind (by decide)]
      exact kept.names
  · simp only [if_neg full]
    exact .refl env r

theorem not_refused {elems : List Named} {name : Option Name} (accepted : ¬ refused elems name = true)
    {n : Name} (given : n ∈ name) : 4 ≤ n.length ∧ ∀ elem ∈ elems, elem.name ≠ some n := by
  obtain rfl : name = some n := given
  simp only [refused, decide_eq_true_eq, not_or, Nat.not_lt, List.any_eq_true, not_exists, not_and] at accepted
  exact accepted

theorem typeMetatypeAdd_cases (kept : Kept env r log) (name : Option Name) :
    typeMetatypeAdd r name = (r.useMetas, none) ∨
      ∃ metas, typeMetatypeAdd r name = ({ r.useMetas with metas := some metas },
          some ⟨pointerTraits, name, 0x100 + r.metaChunks.flatten.length⟩) ∧
        0x100 + r.metaChunks.flatten.length ≤ 0x7ff ∧ Packed metas ∧
        metas.flatten = r.metaChunks.flatten ++
          [⟨pointerTraits, name, 0x100 + r.metaChunks.flatten.length⟩] ∧
        ∀ n ∈ name, 4 ≤ n.length ∧ ∀ elem ∈ r.metaChunks.flatten, elem.name ≠ some n := by
  unfold typeMetatypeAdd
  by_cases accepted : refused (r.useMetas.metas.getD []).flatten name = true
  · exact .inl (if_pos accepted)
  · simp only [if_neg accepted]
    rw [useMetas_chunks] at accepted ⊢
    have added := chunkAdd_eq 0x7ff (fun pos => Named.mk pointerTraits name pos) kept.metaPacked 0x100
    split at added
    · rw [added]
      exact .inl rfl
    · next fits =>
      obtain ⟨metas, run, packed, flat⟩ := added
      rw [run]
      refine .inr ⟨metas, rfl, by omega, packed, flat, ?_⟩
      exact fun n given => not_refused accepted given

theorem does_metatypeAdd (kept : Kept env r log) (name : Option Name) :
    Does env r log (Op.run env r (.metatypeAdd name)) := by
  have count : r.metaChunks.flatten.length = 1 + (ofKind .metatype log).length := by
    rw [kept.metas, List.length_cons, List.length_map, Nat.add_comm]
  unfold Op.run
  rcases typeMetatypeAdd_cases kept name with refused | ⟨metas, run, fits, packed, flat, each⟩
  · simp only [refused]
    exact same_useMetas env r
  · simp only [run, Option.map_some]
    have number : 0x100 + r.metaChunks.flatten.length = 0x101 + (ofKind .metatype log).length := by
      omega
    rw [number]
    generalize new : (⟨0x101 + (ofKind .metatype log).length, pointerTraits, .metatype, name⟩ :
      Entry) = e
    have kind : e.kind = .metatype := by rw [← new]
    have named : e.name = name := by rw [← new]
    have id : e.id = e.kind.base + (ofKind e.kind log).length := by
      rw [← new]
      rfl
    have room : (ofKind e.kind log).length < e.kind.count := by
      rw [kind]
      show _ < 0x6ff
      omega
    refine ⟨?_, id, room⟩
    refine ⟨packed, ?_, ?_, ?_, kept.unused, ?_, kept.genericPacked, ?_, kept.ids_concat id,
      kept.count_concat room, kept.pointers_concat fun named => ?_, ?_, ?_⟩
    · show metas.flatten = _
      rw [flat, number, kept.metas, ofKind_concat, if_pos kind, List.map_append, ← new]
      rfl
    · rw [ofKind_other kind (by decide)]
      exact kept.slots
    · rw [ofKind_other kind (by decide)]
      exact kept.used
    · rw [ofKind_other kind (by decide)]
      exact kept.dynamic
    · rw [ofKind_other kind (by decide)]
      exact kept.generic
    · rw [← new]
    · rw [ofKind_concat, if_pos kind]
      refine kept.metaNames.concat ?_ ?_ ?_
      · rw [named]
        exact fun n given => (each n given).1
      · rw [named]
        intro n given taken
        rw [List.mem_singleton.mp taken] at given
        exact (each _ given).2 metaBase (by rw [kept.metas]; simp) rfl
      · rw [named]
        intro n given old mem
        refine (each n given).2 old.named ?_
        rw [kept.metas]
        exact List.mem_cons_of_mem _ (List.mem_map_of_mem mem)
    · rw [ofKind_other kind (by decide)]
      exact kept.names

/-- The builtin interfaces. -/
def coreNamed (env : Env) : List Named := ((interfacesInit env).take 16).filterMap id

theorem coreNamed_names (env : Env) :
    (coreNamed env).map Named.name = coreInterfaces.map fun p => some p.1 := rfl

theorem Kept.interfaces (kept : Kept env r log) :
    ((r.slots env).take r.usedSlots).filterMap id =
      coreNamed env ++ (ofKind .interface_ log).map Entry.named := by
  have front : ((interfacesInit env).take 16).length = 16 := rfl
  rw [kept.slots, kept.used, List.take_left' (by simp [front]), List.filterMap_append, coreNamed]
  congr 1
  rw [List.filterMap_map]
  show (ofKind .interface_ log).filterMap (some ∘ Entry.named) = _
  rw [List.filterMap_eq_map]

theorem typeInterfaceAdd_cases (kept : Kept env r log) (name : Option Name) :
    (∃ r', typeInterfaceAdd env r name = (r', none) ∧ Same env r r') ∨
      typeInterfaceAdd env r name = ({ r.useInterfaces env with
          interfaces := some ((r.slots env).set r.usedSlots (some ⟨pointerTraits, name, 0x80 + r.usedSlots⟩))
          interfacePos := r.usedSlots + 1 }, some ⟨pointerTraits, name, 0x80 + r.usedSlots⟩) ∧
        (ofKind .interface_ log).length < 0x30 ∧
        ∀ n ∈ name, 4 ≤ n.length ∧
          ∀ elem ∈ coreNamed env ++ (ofKind .interface_ log).map Entry.named, elem.name ≠ some n := by
  unfold typeInterfaceAdd
  by_cases full : 64 ≤ r.interfacePos
  · exact .inl ⟨r, if_pos full, .refl env r⟩
  · rw [if_neg full]
    by_cases accepted : refused (((r.useInterfaces env).interfaces.getD []).take
        (r.useInterfaces env).interfacePos |>.filterMap id) name = true
    · exact .inl ⟨_, if_pos accepted, same_useInterfaces env r⟩
    · simp only [if_neg accepted]
      rw [useInterfaces_slots, show (r.useInterfaces env).interfacePos = r.usedSlots from rfl,
        kept.interfaces] at accepted
      refine .inr ⟨rfl, ?_, fun n given => not_refused accepted given⟩
      have used := kept.used
      unfold Registry.usedSlots at used
      split at used <;> omega

theorem does_interfaceAdd (kept : Kept env r log) (name : Option Name) :
    Does env r log (Op.run env r (.interfaceAdd name)) := by
  unfold Op.run
  rcases typeInterfaceAdd_cases kept name with ⟨r', run, same⟩ | ⟨run, fits, each⟩
  · simp only [run]
    exact same
  · simp only [run, Option.map_some]
    have number : 0x80 + r.usedSlots = 0x90 + (ofKind .interface_ log).length := by
      rw [kept.used]
      omega
    rw [number]
    generalize new : (⟨0x90 + (ofKind .interface_ log).length, pointerTraits, .interface_, name⟩ :
      Entry) = e
    have kind : e.kind = .interface_ := by rw [← new]
    have named : e.name = name := by rw [← new]
    have id : e.id = e.kind.base + (ofKind e.kind log).length := by
      rw [← new]
      rfl
    have room : (ofKind e.kind log).length < e.kind.count := by
      rw [kind]
      exact fits
    refine ⟨?_, id, room⟩
    refine ⟨kept.metaPacked, ?_, ?_, ?_, fun unset => absurd unset (by simp), ?_, kept.genericPacked, ?_,
      kept.ids_concat id, kept.count_concat room, kept.pointers_concat fun named => ?_, ?_, ?_⟩
    · rw [ofKind_other kind (by decide)]
      exact kept.metas
    · show (r.slots env).set r.usedSlots _ = _
      rw [ofKind_concat, if_pos kind, kept.slots, kept.used]
      obtain ⟨k, rest⟩ : ∃ k, 0x30 - (ofKind .interface_ log).length = k + 1 :=
        ⟨0x30 - (ofKind .interface_ log).length - 1, by omega⟩
      have front : ((interfacesInit env).take 16 ++
          (ofKind .interface_ log).map fun e => some e.named).length =
            16 + (ofKind .interface_ log).length := by
        rw [List.length_append, List.length_map]
        rfl
      have after : 0x30 - (ofKind .interface_ log ++ [e]).length = k := by
        rw [List.length_append, List.length_singleton]
        omega
      rw [rest, after, List.replicate_succ, ← front, List.set_append_right _ _ (Nat.le_refl _),
        Nat.sub_self, List.set_cons_zero, List.map_append, ← new]
      simp [Entry.named]
    · show r.usedSlots + 1 = _
      rw [ofKind_concat, if_pos kind, kept.used, List.length_append, List.length_singleton]
      omega
    · rw [ofKind_other kind (by decide)]
      exact kept.dynamic
    · rw [ofKind_other kind (by decide)]
      exact kept.generic
    · rw [← new]
    · rw [ofKind_other kind (by decide)]
      exact kept.metaNames
    · rw [ofKind_concat, if_pos kind]
      refine kept.names.concat ?_ ?_ ?_
      · rw [named]
        exact fun n given => (each n given).1
      · rw [named]
        intro n given taken
        obtain ⟨p, mem, rfl⟩ := List.mem_map.mp taken
        have core : some p.1 ∈ (coreNamed env).map Named.name := by
          rw [coreNamed_names]
          exact List.mem_map.mpr ⟨p, mem, rfl⟩
        obtain ⟨elem, mem, same⟩ := List.mem_map.mp core
        exact (each p.1 given).2 elem (List.mem_append_left _ mem) same
      · rw [named]
        intro n given old mem
        refine (each n given).2 old.named ?_
        exact List.mem_append_right _ (List.mem_map_of_mem mem)

theorem does_run (kept : Kept env r log) (op : Op) : Does env r log (op.run env r) := by
  cases op with
  | add given => exact does_add kept given
  | basicAdd size => exact does_basicAdd kept size
  | metatypeAdd name => exact does_metatypeAdd kept name
  | interfaceAdd name => exact does_interfaceAdd kept name
  | traits type => exact same_typeTraits env r type
  | named name len => exact same_namedTraits env r name len
  | interface_ type => exact same_interfaceTraits env r type
  | metatype type => exact same_metatypeTraits env r type

theorem Kept.step (kept : Kept env r log) (op : Op) :
    Kept env (step env (r, log) op).1 (step env (r, log) op).2 := by
  have does := does_run kept op
  unfold Types.step
  generalize op.run env r = result at does ⊢
  obtain ⟨r', e⟩ := result
  cases e with
  | none => simpa using kept.same does
  | some e => exact does.1

theorem kept_runs (env : Env) (ops : List Op) : Kept env (runs env ops).1 (runs env ops).2 := by
  unfold runs
  have all : ∀ (s : Registry × List Entry), Kept env s.1 s.2 →
      Kept env (ops.foldl (step env) s).1 (ops.foldl (step env) s).2 := by
    induction ops with
    | nil => exact fun s kept => kept
    | cons op ops ih => exact fun s kept => ih _ (kept.step op)
  exact all _ (kept_start env)

/-! ## Lookups -/

theorem interfaceTraits_eq (env : Env) (r : Registry) {type : Nat} (range : 0x80 ≤ type ∧ type ≤ 0xbf) :
    (interfaceTraits env r type).2 =
      if r.usedSlots < type - 0x80 then none else ((r.slots env)[type - 0x80]?).join := by
  unfold interfaceTraits
  rw [if_neg (by omega)]
  show (if r.usedSlots < type - 0x80 then _ else _ : Registry × Option Named).2 = _
  split <;> rfl

theorem metatypeTraits_eq (packed : Packed r.metaChunks) {type : Nat}
    (range : 0x100 ≤ type ∧ type ≤ 0x7ff) :
    (metatypeTraits r type).2 = r.metaChunks.flatten[type - 0x100]? := by
  unfold metatypeTraits
  rw [if_neg (by omega)]
  exact metaFind_eq packed _

theorem typeTraits_interface (env : Env) (r : Registry) {type : Nat}
    (range : 0x80 ≤ type ∧ type ≤ 0xbf) :
    (typeTraits env r type).2 = ((interfaceTraits env r type).2).map Named.traits := by
  unfold typeTraits
  rw [if_neg (by omega), if_neg (by omega), if_neg (by omega), if_neg (by omega), if_pos range]

theorem typeTraits_basic (env : Env) (r : Registry) {type : Nat} (range : 0xc0 ≤ type ∧ type ≤ 0xff) :
    (typeTraits env r type).2 = r.dynamic[type - 0xc0]? := by
  unfold typeTraits
  rw [if_neg (by omega), if_neg (by omega), if_neg (by omega), if_neg (by omega), if_neg (by omega),
    if_pos range]

theorem typeTraits_metatype (env : Env) (packed : Packed r.metaChunks) {type : Nat}
    (range : 0x100 ≤ type ∧ type ≤ 0x7ff) :
    (typeTraits env r type).2 = r.metaChunks.flatten[type - 0x100]?.map Named.traits := by
  unfold typeTraits
  rw [if_neg (by omega), if_neg (by omega), if_neg (by omega), if_neg (by omega), if_neg (by omega),
    if_neg (by omega), if_neg (by omega), if_pos range, ← metatypeTraits_eq packed range]

theorem typeTraits_generic (env : Env) (packed : Packed r.generic) {type : Nat}
    (range : 0x900 ≤ type) (small : type < sizeLimit) :
    (typeTraits env r type).2 = r.generic.flatten[type - 0x900]? := by
  have number : (type + sizeLimit - 0x900) % sizeLimit = type - 0x900 := by
    unfold sizeLimit at *
    omega
  unfold typeTraits
  rw [if_neg (by omega), if_neg (by omega), if_neg (by omega), if_neg (by omega), if_neg (by omega),
    if_neg (by omega), if_neg (by omega), if_neg (by omega), number]
  exact genericFind_eq packed (by omega)

/-- The types of the library. -/
def Builtin (type : Nat) : Prop :=
  type ∈ coreSizes.map Prod.fst ∨ type ∈ scalarSizes.map Prod.fst ∨
    type + 0x20 ∈ scalarSizes.map Prod.fst ∨ 0x80 ≤ type ∧ type ≤ 0x88 ∨ type = 0x100 ∨
    0x800 ≤ type ∧ type ≤ 0x803

theorem tableSize_none {sizes : List (Nat × Nat)} {type : Nat} (absent : type ∉ sizes.map Prod.fst) :
    tableSize sizes type = none := by
  unfold tableSize
  rw [Option.map_eq_none_iff, List.find?_eq_none]
  intro p mem same
  exact absent (List.mem_map.mpr ⟨p, mem, of_decide_eq_true same⟩)

theorem Kept.mem (kept : Kept env r log) (mem : e ∈ log) :
    ∃ i, (ofKind e.kind log)[i]? = some e ∧ e.id = e.kind.base + i ∧ i < e.kind.count := by
  have mem' : e ∈ ofKind e.kind log := List.mem_filter.mpr ⟨mem, by simp⟩
  obtain ⟨i, found⟩ := List.mem_iff_getElem?.mp mem'
  have short := (List.getElem?_eq_some_iff.mp found).1
  have room := kept.count e.kind
  exact ⟨i, found, kept.ids _ _ _ found, by omega⟩

/-- Every entry is told with its traits. -/
theorem Kept.traits (kept : Kept env r log) (mem : e ∈ log) :
    (typeTraits env r e.id).2 = some e.traits := by
  obtain ⟨i, found, id, room⟩ := kept.mem mem
  rw [id]
  cases kind : e.kind with
  | generic =>
      rw [kind] at found room
      have room : i < 0x700 := room
      have number : 0x900 + i - 0x900 = i := Nat.add_sub_cancel_left _ _
      show (typeTraits env r (0x900 + i)).2 = _
      rw [typeTraits_generic env kept.genericPacked (Nat.le_add_right _ _)
        (show 0x900 + i < 2 ^ 64 by omega), number, kept.generic, List.getElem?_map, found]
      rfl
  | basic =>
      rw [kind] at found room
      have room : i < 0x40 := room
      have number : 0xc0 + i - 0xc0 = i := Nat.add_sub_cancel_left _ _
      show (typeTraits env r (0xc0 + i)).2 = _
      rw [typeTraits_basic env r ⟨Nat.le_add_right _ _, show 0xc0 + i ≤ 0xff by omega⟩, number,
        kept.dynamic, List.getElem?_map, found]
      rfl
  | interface_ =>
      rw [kind] at found room
      have room : i < 0x30 := room
      have range : 0x80 ≤ 0x90 + i ∧ 0x90 + i ≤ 0xbf := by omega
      have number : 0x90 + i - 0x80 = 16 + i := by omega
      have short := (List.getElem?_eq_some_iff.mp found).1
      have front : ((interfacesInit env).take 16).length = 16 := rfl
      show (typeTraits env r (0x90 + i)).2 = _
      rw [typeTraits_interface env r range, interfaceTraits_eq env r range, number, kept.used,
        if_neg (by omega), kept.slots, List.getElem?_append_left (by simp [front]; omega),
        List.getElem?_append_right (by rw [front]; omega), front, Nat.add_sub_cancel_left,
        List.getElem?_map, found]
      rfl
  | metatype =>
      rw [kind] at found room
      have room : i < 0x6ff := room
      have number : 0x101 + i - 0x100 = i + 1 := by omega
      show (typeTraits env r (0x101 + i)).2 = _
      rw [typeTraits_metatype env kept.metaPacked (by omega), number, kept.metas, List.getElem?_cons_succ,
        List.getElem?_map, found]
      rfl

/-- A number of a kind without entry. -/
theorem Kept.missing (kept : Kept env r log) (kind : Kind) {type i : Nat} (absent : ∀ e ∈ log, e.id ≠ type)
    (number : type = kind.base + i) : (ofKind kind log)[i]? = none := by
  cases found : (ofKind kind log)[i]? with
  | none => rfl
  | some e =>
      have mem : e ∈ log := (List.mem_filter.mp (List.mem_of_getElem? found)).1
      exact absurd ((kept.ids kind i e found).trans number.symm) (absent e mem)

/-- No other number is a type. -/
theorem Kept.absent (kept : Kept env r log) {type : Nat} (small : type < sizeLimit)
    (foreign : ¬ Builtin type) (absent : ∀ e ∈ log, e.id ≠ type) : (typeTraits env r type).2 = none := by
  unfold Builtin at foreign
  simp only [not_or] at foreign
  obtain ⟨core, scalar, vector, builtin, base, managed⟩ := foreign
  by_cases interface_ : 0x80 ≤ type ∧ type ≤ 0xbf
  · rw [typeTraits_interface env r interface_, interfaceTraits_eq env r interface_, kept.used]
    split
    · rfl
    · next inside =>
      have front : ((interfacesInit env).take 16).length = 16 := rfl
      have slot : ((r.slots env)[type - 0x80]?).join = none := by
        rw [kept.slots]
        by_cases fixed : type < 0x90
        · rw [List.append_assoc, List.getElem?_append_left (by rw [front]; omega)]
          have unnamed : ∀ i < 7, ((interfacesInit env).take 16)[9 + i]? = some none := by
            intro i less
            match i, less with
            | 0, _ | 1, _ | 2, _ | 3, _ | 4, _ | 5, _ | 6, _ => rfl
          have slot := unnamed (type - 0x89) (by omega)
          rw [show 9 + (type - 0x89) = type - 0x80 by omega] at slot
          rw [slot]
          rfl
        · have none_ := kept.missing .interface_ absent
            (show type = 0x90 + (type - 0x90) by omega)
          have beyond : (ofKind .interface_ log).length ≤ type - 0x90 := List.getElem?_eq_none_iff.mp none_
          rw [List.getElem?_append_right (by simp [front]; omega), List.getElem?_replicate]
          split <;> rfl
      rw [slot]
      rfl
  by_cases basic : 0xc0 ≤ type ∧ type ≤ 0xff
  · have none_ := kept.missing .basic absent (show type = 0xc0 + (type - 0xc0) by omega)
    rw [typeTraits_basic env r basic, kept.dynamic, List.getElem?_map, none_]
    rfl
  by_cases metatype : 0x100 ≤ type ∧ type ≤ 0x7ff
  · have none_ := kept.missing .metatype absent (show type = 0x101 + (type - 0x101) by omega)
    rw [typeTraits_metatype env kept.metaPacked metatype, kept.metas,
      show type - 0x100 = type - 0x101 + 1 by omega, List.getElem?_cons_succ, List.getElem?_map, none_]
    rfl
  by_cases generic : 0x900 ≤ type
  · have none_ := kept.missing .generic absent (show type = 0x900 + (type - 0x900) by omega)
    rw [typeTraits_generic env kept.genericPacked generic small, kept.generic, List.getElem?_map, none_]
    rfl
  unfold typeTraits
  split
  · rfl
  split
  · exact tableSize_none core
  split
  · exact tableSize_none scalar
  split
  · rw [tableSize_none vector]
    rfl
  · have number : (type + sizeLimit - 0x900) % sizeLimit = type + sizeLimit - 0x900 := by
      unfold sizeLimit at *
      omega
    have count := kept.count .generic
    have beyond : r.generic.flatten.length ≤ type + sizeLimit - 0x900 := by
      rw [kept.generic, List.length_map]
      have large : Kind.generic.count = 0x700 := rfl
      unfold sizeLimit at *
      omega
    show genericFind r.generic ((type + sizeLimit - 0x900) % sizeLimit) = none
    rw [number, genericFind_eq kept.genericPacked (by unfold sizeLimit at *; omega)]
    exact List.getElem?_eq_none beyond

/-- The entry that is there from the beginning. -/
theorem Kept.base (kept : Kept env r log) : (typeTraits env r 0x100).2 = some pointerTraits := by
  rw [typeTraits_metatype env kept.metaPacked (by omega), kept.metas]
  rfl

/-- The traits of a builtin interface have what was found in their memory. -/
theorem Kept.builtin (kept : Kept env r log) {i : Nat} (inside : i < 9) :
    (typeTraits env r (0x80 + i)).2 = some { env.found i with init := 0 } := by
  have front : ((interfacesInit env).take 16).length = 16 := rfl
  rw [typeTraits_interface env r (by omega), interfaceTraits_eq env r (by omega), kept.used,
    if_neg (by omega), kept.slots, List.append_assoc, List.getElem?_append_left (by rw [front]; omega),
    Nat.add_sub_cancel_left]
  match i, inside with
  | 0, _ | 1, _ | 2, _ | 3, _ | 4, _ | 5, _ | 6, _ | 7, _ | 8, _ => rfl

/-- All entries that have names, in the order of the search. -/
def everyNamed (env : Env) (log : List Entry) : List Named :=
  (metaBase :: (ofKind .metatype log).map Entry.named) ++
    (coreNamed env ++ (ofKind .interface_ log).map Entry.named)

theorem namedFind_eq (kept : Kept env r log) (p : Name → Bool) :
    (namedFind env r p).2 = (everyNamed env log).find? fun elem => elem.name.any p := by
  have second : (((r.useMetas.useInterfaces env).interfaces.getD []).take
      (r.useMetas.useInterfaces env).interfacePos).filterMap id =
        coreNamed env ++ (ofKind .interface_ log).map Entry.named := kept.interfaces
  unfold namedFind everyNamed
  rw [List.find?_append, ← kept.metas]
  simp only [second]
  have first : (r.useMetas.metas.getD []).flatten.find? (fun elem => elem.name.any p) =
      r.metaChunks.flatten.find? fun elem => elem.name.any p := rfl
  rw [first]
  cases r.metaChunks.flatten.find? fun (elem : Named) => elem.name.any p with
  | none => rfl
  | some elem => rfl

/-- Entries of one kind are told apart by their names. -/
theorem Distinct.unique {taken : List Name} {entries : List Entry} (d : Distinct taken entries)
    {e' : Entry} (mem : e ∈ entries) (mem' : e' ∈ entries) {n : Name} (name : e.name = some n)
    (name' : e'.name = some n) : e = e' := by
  have nodup := d.nodup
  clear d
  induction entries with
  | nil => cases mem
  | cons x rest ih =>
      have apart : ∀ y ∈ rest, x.name = some n → y.name ≠ some n := by
        intro y there here same
        rw [List.filterMap_cons_some here] at nodup
        exact (List.nodup_cons.mp nodup).1 (List.mem_filterMap.mpr ⟨y, there, same⟩)
      rcases List.mem_cons.mp mem with here | there <;> rcases List.mem_cons.mp mem' with here' | there'
      · rw [here, here']
      · exact absurd name' (apart e' there' (here ▸ name))
      · exact absurd name (apart e there (here' ▸ name'))
      · refine ih there there' (nodup.sublist ?_)
        rw [← List.singleton_append, List.filterMap_append]
        exact List.sublist_append_right _ _

theorem find_named {entries : List Entry} {taken : List Name} (d : Distinct taken entries)
    (mem : e ∈ entries) {n : Name} (name : e.name = some n) :
    ((entries.map Entry.named).find? fun elem => elem.name.any fun x => decide (n = x)) =
      some e.named := by
  cases found : (entries.map Entry.named).find? fun elem => elem.name.any fun x => decide (n = x) with
  | none =>
      have not := List.find?_eq_none.mp found e.named (List.mem_map_of_mem mem)
      simp [Entry.named, name] at not
  | some elem =>
      obtain ⟨e', mem', rfl⟩ := List.mem_map.mp (List.mem_of_find?_eq_some found)
      have same := List.find?_some found
      simp only [Entry.named, Option.any_eq_true, decide_eq_true_eq] at same
      obtain ⟨x, name', rfl⟩ := same
      rw [d.unique mem mem' name name']

theorem find_other {elems : List Named} {n : Name} (other : ∀ elem ∈ elems, elem.name ≠ some n) :
    (elems.find? fun elem => elem.name.any fun x => decide (n = x)) = none := by
  refine List.find?_eq_none.mpr fun elem mem same => other elem mem ?_
  simp only [Option.any_eq_true, decide_eq_true_eq] at same
  obtain ⟨x, name, rfl⟩ := same
  exact name

theorem coreNamed_other {n : Name} (other : n ∉ coreInterfaces.map Prod.fst) :
    ∀ elem ∈ coreNamed env, elem.name ≠ some n := by
  intro elem mem name
  have core : elem.name ∈ (coreNamed env).map Named.name := List.mem_map_of_mem mem
  rw [coreNamed_names, name] at core
  obtain ⟨p, mem, eq⟩ := List.mem_map.mp core
  exact other (List.mem_map.mpr ⟨p, mem, Option.some.inj eq⟩)

/-- No metatype has the name of an entry, or the entry is one. -/
def Leads (log : List Entry) (e : Entry) : Prop :=
  e.kind = .metatype ∨
    e.kind = .interface_ ∧ e.name ≠ metaBase.name ∧
      ∀ e' ∈ log, e'.kind = .metatype → e'.name ≠ e.name

/-- The search for the name of an entry finds it, if no metatype is in front of it. -/
theorem Kept.find (kept : Kept env r log) (mem : e ∈ log) {n : Name} (name : e.name = some n)
    (leads : Leads log e) :
    (namedFind env r fun x => decide (n = x)).2 = some e.named := by
  rw [namedFind_eq kept, everyNamed, List.find?_append]
  rcases leads with kind | ⟨kind, base, other⟩
  · have mem' : e ∈ ofKind .metatype log := List.mem_filter.mpr ⟨mem, by simp [kind]⟩
    have apart : ¬ (metaBase.name.any fun x => decide (n = x)) = true := by
      have far := kept.metaNames.other e mem' n name
      intro same
      exact far (List.mem_singleton.mpr (of_decide_eq_true same))
    have skip : (metaBase :: (ofKind .metatype log).map Entry.named).find?
        (fun elem => elem.name.any fun x => decide (n = x)) = some e.named := by
      rw [List.find?_cons, Bool.eq_false_iff.mpr apart]
      exact find_named kept.metaNames mem' name
    rw [skip]
    rfl
  · have mem' : e ∈ ofKind .interface_ log := List.mem_filter.mpr ⟨mem, by simp [kind]⟩
    have metas : ∀ elem ∈ metaBase :: (ofKind .metatype log).map Entry.named, elem.name ≠ some n := by
      intro elem mem same
      rcases List.mem_cons.mp mem with rfl | mem
      · exact base (name.trans same.symm)
      · obtain ⟨e', mem₁, rfl⟩ := List.mem_map.mp mem
        obtain ⟨there, kind'⟩ := List.mem_filter.mp mem₁
        exact other e' there (of_decide_eq_true kind') (same.trans name.symm)
    rw [find_other metas, List.find?_append, find_other (coreNamed_other (kept.names.other e mem' n name)),
      find_named kept.names mem' name]
    rfl

theorem Kept.long (kept : Kept env r log) (mem : e ∈ log) {n : Name} (name : e.name = some n)
    (leads : Leads log e) : 4 ≤ n.length := by
  rcases leads with kind | ⟨kind, _⟩
  · exact kept.metaNames.long e (List.mem_filter.mpr ⟨mem, by simp [kind]⟩) n name
  · exact kept.names.long e (List.mem_filter.mpr ⟨mem, by simp [kind]⟩) n name

/-- The lookup with the length of a name. -/
theorem Kept.exact (kept : Kept env r log) (mem : e ∈ log) {n : Name} (name : e.name = some n)
    (leads : Leads log e) : (namedTraits env r (some n) n.length).2 = some e.named := by
  have long := kept.long mem name leads
  have same : (fun elem : Name => decide ((n.length : Int) = elem.length ∧
      n.take (n.length : Int).toNat = elem.take (n.length : Int).toNat)) = fun x => decide (n = x) := by
    funext x
    rw [decide_eq_decide, Int.toNat_natCast]
    refine ⟨fun ⟨len, eq⟩ => ?_, fun eq => by rw [eq]; exact ⟨rfl, rfl⟩⟩
    have len : n.length = x.length := by omega
    rw [List.take_length, len, List.take_length] at eq
    exact eq
  have some_ : ¬ ((n.length : Int) = 0 ∨ n = []) := by
    rintro (zero | nil)
    · omega
    · rw [nil] at long
      simp at long
  unfold namedTraits
  simp only [if_neg some_]
  rw [if_pos (by omega), same]
  exact kept.find mem name leads

/-- The lookup of a name without length. -/
theorem Kept.full (kept : Kept env r log) (mem : e ∈ log) {n : Name} (name : e.name = some n)
    (leads : Leads log e) : (namedTraits env r (some n) (-1)).2 = some e.named ↔ resolve n = n := by
  have long := kept.long mem name leads
  have some_ : ¬ ((-1 : Int) = 0 ∨ n = []) := by
    rintro (zero | nil)
    · omega
    · rw [nil] at long
      simp at long
  unfold namedTraits
  simp only [if_neg some_]
  rw [if_neg (by omega)]
  refine ⟨fun found => ?_, fun eq => ?_⟩
  · rw [namedFind_eq kept] at found
    have same := List.find?_some found
    simpa [Entry.named, name] using same
  · rw [eq]
    exact kept.find mem name leads

/-! ## What holds in every run -/

/-- The numbers of different kinds differ. -/
theorem Kept.same_kind (kept : Kept env r log) {e' : Entry} (mem : e ∈ log) (mem' : e' ∈ log)
    (same : e.id = e'.id) : e.kind = e'.kind := by
  obtain ⟨i, _, id, room⟩ := kept.mem mem
  obtain ⟨i', _, id', room'⟩ := kept.mem mem'
  rw [id, id'] at same
  generalize e.kind = kind at same room ⊢
  generalize e'.kind = kind' at same room' ⊢
  cases kind <;> cases kind' <;> simp only [Kind.base, Kind.count] at same room room' ⊢ <;> omega

theorem Kept.unique (kept : Kept env r log) : (log.map Entry.id).Nodup := by
  refine List.pairwise_map.mpr (List.pairwise_iff_forall_sublist.mpr fun {e e'} sub same => ?_)
  have mem : e ∈ log := sub.subset (by simp)
  have mem' : e' ∈ log := sub.subset (by simp)
  have kind := kept.same_kind mem mem' same
  have both : [e, e'].Sublist (ofKind e.kind log) := by
    have filtered := sub.filter fun x => x.kind = e.kind
    unfold ofKind
    simpa [kind] using filtered
  have apart : (ofKind e.kind log).Pairwise fun a b => a.id ≠ b.id := by
    refine List.pairwise_iff_getElem.mpr fun i j ilt jlt less eq => ?_
    have first := kept.ids e.kind i _ (List.getElem?_eq_getElem ilt)
    have second := kept.ids e.kind j _ (List.getElem?_eq_getElem jlt)
    omega
  exact List.pairwise_iff_forall_sublist.mp apart both same

/-- The first and the last number of each kind. -/
def Kind.first (kind : Kind) : Nat := kind.base

def Kind.last : Kind → Nat
  | generic => 0xfff
  | basic => 0xff
  | interface_ => 0xbf
  | metatype => 0x7ff

theorem Kept.range (kept : Kept env r log) (mem : e ∈ log) :
    e.kind.first ≤ e.id ∧ e.id ≤ e.kind.last ∧ ¬ Builtin e.id := by
  obtain ⟨i, _, id, room⟩ := kept.mem mem
  rw [id]
  generalize e.kind = kind at room ⊢
  have range : kind.first ≤ kind.base + i ∧ kind.base + i ≤ kind.last := by
    cases kind <;> simp only [Kind.base, Kind.first, Kind.last, Kind.count] at room ⊢ <;> omega
  refine ⟨range.1, range.2, ?_⟩
  rintro (core | scalar | vector | builtin | base | managed)
  · have small : ∀ n ∈ coreSizes.map Prod.fst, n < 0x80 := by decide
    have small := small _ core
    cases kind <;> simp only [Kind.base] at small <;> omega
  · have small : ∀ n ∈ scalarSizes.map Prod.fst, n < 0x80 := by decide
    have small := small _ scalar
    cases kind <;> simp only [Kind.base] at small <;> omega
  · have small : ∀ n ∈ scalarSizes.map Prod.fst, n < 0x80 := by decide
    have small := small _ vector
    cases kind <;> simp only [Kind.base] at small <;> omega
  · cases kind <;> simp only [Kind.base] at builtin <;> omega
  · cases kind <;> simp only [Kind.base, Kind.count] at base room <;> omega
  · cases kind <;> simp only [Kind.base, Kind.count] at managed room <;> omega

/-- Lookups tell the same in stores that are the same. -/
theorem Kept.typeTraits_same (kept : Kept env r log) (s : Same env r r') (type : Nat) :
    (typeTraits env r' type).2 = (typeTraits env r type).2 := by
  have kept' := kept.same s
  by_cases interface_ : 0x80 ≤ type ∧ type ≤ 0xbf
  · rw [typeTraits_interface env r interface_, typeTraits_interface env r' interface_,
      interfaceTraits_eq env r interface_, interfaceTraits_eq env r' interface_, s.used, s.slots]
  by_cases metatype : 0x100 ≤ type ∧ type ≤ 0x7ff
  · rw [typeTraits_metatype env kept.metaPacked metatype, typeTraits_metatype env kept'.metaPacked metatype,
      s.metas]
  unfold typeTraits
  simp only [if_neg interface_, if_neg metatype, s.dynamic, s.generic]
  split
  · rfl
  split
  · rfl
  split
  · rfl
  split
  · rfl
  split
  · rfl
  split <;> rfl

theorem Kept.namedTraits_same (kept : Kept env r log) (s : Same env r r') (name : Option Name)
    (len : Int) : (namedTraits env r' name len).2 = (namedTraits env r name len).2 := by
  have kept' := kept.same s
  unfold namedTraits
  cases name with
  | none => rfl
  | some name =>
      simp only
      split
      · rfl
      split
      · rw [namedFind_eq kept, namedFind_eq kept']
      · rw [namedFind_eq kept, namedFind_eq kept']

/-- The name of the entry that is there from the beginning. -/
theorem Kept.named_base (kept : Kept env r log) (len : Int) (whole : len = 8 ∨ len < 0) :
    (namedTraits env r metaBase.name len).2 = some metaBase := by
  have some_ : ¬ (len = 0 ∨ ['m', 'e', 't', 'a', 't', 'y', 'p', 'e'] = ([] : Name)) := by
    rintro (zero | nil)
    · omega
    · cases nil
  show (namedTraits env r (some _) len).2 = _
  unfold namedTraits
  simp only [if_neg some_]
  split
  · obtain rfl : len = 8 := by omega
    rw [namedFind_eq kept]
    rfl
  · rw [namedFind_eq kept]
    rfl

/-- What lookups tell after registrations. -/
structure Right (env : Env) (r : Registry) (log : List Entry) : Prop where
  unique : (log.map Entry.id).Nodup
  range : ∀ e ∈ log, e.kind.first ≤ e.id ∧ e.id ≤ e.kind.last ∧ ¬ Builtin e.id
  traits : ∀ e ∈ log, (typeTraits env r e.id).2 = some e.traits
  pointers : ∀ e ∈ log, e.kind = .metatype ∨ e.kind = .interface_ → e.traits = pointerTraits
  absent : ∀ type < sizeLimit, ¬ Builtin type → (∀ e ∈ log, e.id ≠ type) →
    (typeTraits env r type).2 = none
  base : (typeTraits env r 0x100).2 = some pointerTraits
  /-- right only if the memory had the other parts already -/
  builtin : ∀ i < 9, (typeTraits env r (0x80 + i)).2 = some pointerTraits ↔
    (env.found i).fini = 0 ∧ (env.found i).size = 8
  exact : ∀ e ∈ log, ∀ n, e.name = some n → Leads log e →
    (namedTraits env r (some n) n.length).2 = some e.named
  /-- right only if the name is no shortname -/
  full : ∀ e ∈ log, ∀ n, e.name = some n → Leads log e →
    ((namedTraits env r (some n) (-1)).2 = some e.named ↔ n ≠ ['m', 'e', 't', 'a'] ∧ n ≠ ['i', 't', 'e', 'r'])
  named_base : ∀ len, len = 8 ∨ len < 0 → (namedTraits env r metaBase.name len).2 = some metaBase
  failing : ∀ op, (Op.run env r op).2 = none →
    (∀ type, (typeTraits env (Op.run env r op).1 type).2 = (typeTraits env r type).2) ∧
    ∀ name len, (namedTraits env (Op.run env r op).1 name len).2 = (namedTraits env r name len).2

theorem resolve_self {n : Name} (long : 4 ≤ n.length) :
    resolve n = n ↔ n ≠ ['m', 'e', 't', 'a'] ∧ n ≠ ['i', 't', 'e', 'r'] := by
  have log : n ≠ ['l', 'o', 'g'] := by
    rintro rfl
    simp at long
  have out : n ≠ ['o', 'u', 't'] := by
    rintro rfl
    simp at long
  unfold resolve
  rw [if_neg log]
  by_cases iter : n = ['i', 't', 'e', 'r']
  · subst iter
    simp
  rw [if_neg iter, if_neg out]
  by_cases meta_ : n = ['m', 'e', 't', 'a']
  · subst meta_
    simp
  · rw [if_neg meta_]
    exact ⟨fun _ => ⟨meta_, iter⟩, fun _ => rfl⟩

/-- In every run all lookups are right, apart from the memory of the builtin interfaces and
    from shortnames. -/
theorem registry_of_run (env : Env) (ops : List Op) : Right env (runs env ops).1 (runs env ops).2 := by
  have kept := kept_runs env ops
  generalize (runs env ops).1 = r at kept ⊢
  generalize (runs env ops).2 = log at kept ⊢
  refine ⟨kept.unique, fun e mem => kept.range mem, fun e mem => kept.traits mem, kept.pointers,
    fun type small foreign absent => kept.absent small foreign absent, kept.base, fun i inside => ?_,
    fun e mem n name leads => kept.exact mem name leads, fun e mem n name leads => ?_,
    kept.named_base, fun op failed => ?_⟩
  · rw [kept.builtin inside, Option.some_inj]
    simp [pointerTraits]
  · rw [kept.full mem name leads]
    exact resolve_self (kept.long mem name leads)
  · have does := does_run kept op
    generalize op.run env r = result at does failed ⊢
    obtain ⟨r', e⟩ := result
    obtain rfl : e = none := failed
    exact ⟨fun type => kept.typeTraits_same does type, fun name len => kept.namedTraits_same does name len⟩

/-- A metatype with a shortname, in a memory that has zeros: neither the name nor the builtin
    interfaces are told as they should be. -/
theorem registry_wrong :
    let env : Env := ⟨fun _ => ⟨0, 0, 0⟩, fun _ => ⟨0, 0, 0⟩⟩
    let r := (runs env [.metatypeAdd (some ['m', 'e', 't', 'a'])]).1
    (namedTraits env r (some ['m', 'e', 't', 'a']) 4).2 =
        some ⟨pointerTraits, some ['m', 'e', 't', 'a'], 0x101⟩ ∧
      (namedTraits env r (some ['m', 'e', 't', 'a']) (-1)).2 ≠
        some ⟨pointerTraits, some ['m', 'e', 't', 'a'], 0x101⟩ ∧
      (typeTraits env r 0x81).2 ≠ some pointerTraits := by
  decide

end Mpt.Types
