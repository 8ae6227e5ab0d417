import Mpt.Plot.Mapping
import Mathlib.Logic.Function.Basic

/-! # The registry of cycles

A mapping keeps the cycles of worlds by the indices of layout, graph and world.  Three functions
compare these with a hint, which asks for some of them.
-/

namespace Mpt.Plot.Cycles

/-- A graph with the dimensions of its transformation, and its worlds. -/
structure Graph where
  dim : Nat
  worlds : List (Option Nat)

/-- The layouts, by their graphs. -/
abbrev Layouts : Type := List (Option (List (Option Graph)))

/-- `graphic::hint` -/
structure Hint where
  match_ : UInt8
  lay : UInt8
  grf : UInt8
  wld : UInt8

/-- `map<laydest, reference<cycle> >::entry` -/
structure Entry where
  key : LayDest
  value : Option Nat
  deriving Repr, DecidableEq

def matchLayout : UInt8 := 1
def matchGraph : UInt8 := 2
def matchWorld : UInt8 := 4
def matchDimension : UInt8 := 8
def matchPath : UInt8 := 7
def matchAll : UInt8 := 255

/-- `laydest::match` -/
def matches_ (key dst : LayDest) (flg : UInt8) : Bool :=
  if flg &&& matchLayout ≠ 0 ∧ dst.lay ≠ key.lay then false
  else if flg &&& matchGraph ≠ 0 ∧ dst.grf ≠ key.grf then false
  else if flg &&& matchWorld ≠ 0 ∧ dst.wld ≠ key.wld then false
  else if flg &&& matchDimension ≠ 0 ∧ dst.dim ≠ key.dim then false
  else true

/-- `map::get`: the position of the value.  For a key that is there it is the one behind the last. -/
def get (d : List Entry) (key : LayDest) : Option Nat :=
  if d.any fun c => matches_ c.key key matchAll then some d.length else none

/-- `map::set`; there is no result if something outside of the entries is written. -/
def set (d : List Entry) (key : LayDest) (value : Option Nat) : Option (List Entry) :=
  match get d key with
  | none => some (d ++ [⟨key, value⟩])
  | some pos => d[pos]?.map fun e => d.set pos { e with value := value }

/-- A loop over references, without those that are empty. -/
def eachInstance {α β : Type} (body : Nat → α → List β) : (i : Nat) → List (Option α) → List β
  | _, [] => []
  | i, none :: rest => eachInstance body (i + 1) rest
  | i, some x :: rest => body i x ++ eachInstance body (i + 1) rest

/-- A world and its indices -/
structure Place where
  lay : Nat
  grf : Nat
  wld : Nat
  world : Nat
  dim : Nat

/-- The loop bodies for a world, a graph and a layout -/
def worldPlaces (h : Hint) (i j dim k wld : Nat) : List Place :=
  if h.match_ &&& matchWorld ≠ 0 ∧ h.wld.toNat ≠ k then [] else [⟨i, j, k, wld, dim⟩]

def graphPlaces (h : Hint) (i j : Nat) (grf : Graph) : List Place :=
  if h.match_ &&& matchGraph ≠ 0 ∧ h.grf.toNat ≠ j then []
  else eachInstance (worldPlaces h i j grf.dim) 0 grf.worlds

def layoutPlaces (h : Hint) (i : Nat) (graphs : List (Option Graph)) : List Place :=
  if h.match_ &&& matchLayout ≠ 0 ∧ h.lay.toNat ≠ i then []
  else eachInstance (graphPlaces h i) 0 graphs

/-- The worlds that the three loops over layouts, graphs and worlds get to. -/
def places (layouts : Layouts) (h : Hint) : List Place := eachInstance (layoutPlaces h) 0 layouts

/-- `laydest(i, j, k)` -/
def Place.key (p : Place) : LayDest := ⟨.ofNat p.lay, .ofNat p.grf, .ofNat p.wld, 0⟩

/-- The body of the loops of `graphic::mapping::set_cycles` -/
def setStep (cycles : Nat → Option Nat) (s : List Entry × Nat) (p : Place) : Option (List Entry × Nat) :=
  (set s.1 p.key (cycles p.world)).map fun d => (d, s.2 + 1)

/-- `graphic::mapping::set_cycles`, with the cycles of the worlds. -/
def setCycles (cycles : Nat → Option Nat) (d : List Entry) (layouts : Layouts) (h : Hint) :
    Option (List Entry × Nat) :=
  (places layouts h).foldlM (setStep cycles) (d, 0)

/-- The entries, the cycles of the worlds and the number of those that were set. -/
structure Loaded where
  d : List Entry
  cycles : Nat → Option Nat
  total : Nat

/-- The innermost loop of `graphic::mapping::get_cycles` -/
def getLoop (p : Place) : List Entry → (cycles : Nat → Option Nat) → (total : Nat) → Loaded
  | [], cycles, total => ⟨[], cycles, total⟩
  | b :: rest, cycles, total =>
      if !matches_ b.key p.key matchPath then
        let s := getLoop p rest cycles total
        { s with d := b :: s.d }
      else
        match b.value with
        | none => ⟨b :: rest, cycles, total⟩
        | some cycle =>
            let s := getLoop p rest (Function.update cycles p.world (some cycle)) (total + 1)
            { s with d := { b with key := { b.key with dim := .ofNat p.dim } } :: s.d }

/-- `graphic::mapping::get_cycles` -/
def getCycles (d : List Entry) (cycles : Nat → Option Nat) (layouts : Layouts) (h : Hint) : Loaded :=
  (places layouts h).foldl (fun s p => getLoop p s.d s.cycles s.total) ⟨d, cycles, 0⟩

/-- `graphic::mapping::clear_cycles` -/
def clearCycles (h : Hint) : List Entry → List Entry × Nat
  | [] => ([], 0)
  | e :: d =>
      let (d, clear) := clearCycles h d
      if h.match_ &&& matchLayout ≠ 0 ∧ e.key.lay ≠ h.lay then (e :: d, clear)
      else if h.match_ &&& matchGraph ≠ 0 ∧ e.key.grf ≠ h.grf then (e :: d, clear)
      -- the graph is compared with the world
      else if h.match_ &&& matchWorld ≠ 0 ∧ e.key.grf ≠ h.wld then (e :: d, clear)
      else if e.value.isNone then (e :: d, clear)
      else ({ e with value := none } :: d, clear + 1)

/-! ## What the registry is for -/

/-- There is a world with these indices. -/
def At (layouts : Layouts) (p : Place) : Prop :=
  ∃ graphs grf, layouts[p.lay]? = some (some graphs) ∧ graphs[p.grf]? = some (some grf) ∧
    grf.worlds[p.wld]? = some (some p.world) ∧ p.dim = grf.dim

/-- The indices are those that are asked for. -/
def Hint.Selects (h : Hint) (lay grf wld : Nat) : Prop :=
  (h.match_ &&& matchLayout ≠ 0 → h.lay.toNat = lay) ∧ (h.match_ &&& matchGraph ≠ 0 → h.grf.toNat = grf) ∧
    (h.match_ &&& matchWorld ≠ 0 → h.wld.toNat = wld)

instance (h : Hint) (lay grf wld : Nat) : Decidable (h.Selects lay grf wld) :=
  inferInstanceAs (Decidable (_ ∧ _ ∧ _))

/-- A world that the hint is about. -/
def Chosen (layouts : Layouts) (h : Hint) (p : Place) : Prop := At layouts p ∧ h.Selects p.lay p.grf p.wld

/-- Each of the lists is below 256 entries. -/
def Small (layouts : Layouts) : Prop :=
  layouts.length < 256 ∧ ∀ graphs, some graphs ∈ layouts → graphs.length < 256 ∧
    ∀ grf, some grf ∈ graphs → grf.worlds.length < 256

/-- The chosen worlds are registered once, with their cycles. -/
def Registers (cycles : Nat → Option Nat) (d : List Entry) (layouts : Layouts) (h : Hint) : Prop :=
  ∃ added, setCycles cycles d layouts h = some (d ++ added, added.length) ∧ (added.map Entry.key).Nodup ∧
    ∀ e, e ∈ added ↔ ∃ p, Chosen layouts h p ∧ e = ⟨p.key, cycles p.world⟩

/-- The cycles come back, whatever the worlds have by then. -/
def GivesBack (cycles : Nat → Option Nat) (d : List Entry) (layouts : Layouts) (h : Hint) : Prop :=
  ∀ d' n, setCycles cycles d layouts h = some (d', n) → ∀ now,
    (∀ p, Chosen layouts h p → (getCycles d' now layouts h).cycles p.world = (cycles p.world).or (now p.world)) ∧
    ∀ w, (∀ p, Chosen layouts h p → p.world ≠ w) → (getCycles d' now layouts h).cycles w = now w

/-- An entry that is to be cleared. -/
def Hint.clears (h : Hint) (e : Entry) : Bool :=
  e.value.isSome && decide (h.Selects e.key.lay.toNat e.key.grf.toNat e.key.wld.toNat)

/-- Exactly the entries that are selected lose their cycle, and are counted. -/
def Clears (h : Hint) (d : List Entry) : Prop :=
  clearCycles h d = (d.map fun e => if h.clears e then { e with value := none } else e,
    (d.filter h.clears).length)

/-! ## The loops -/

section Loops

variable {α β : Type} {body : Nat → α → List β}

theorem mem_eachInstance {b : β} (n : Nat) (l : List (Option α)) :
    b ∈ eachInstance body n l ↔ ∃ i x, l[i]? = some (some x) ∧ b ∈ body (n + i) x := by
  induction l generalizing n with
  | nil => exact iff_of_false nofun nofun
  | cons o l ih =>
      have later : (∃ i x, l[i]? = some (some x) ∧ b ∈ body (n + 1 + i) x) ↔
          ∃ i x, (o :: l)[i + 1]? = some (some x) ∧ b ∈ body (n + (i + 1)) x := by
        simp only [List.getElem?_cons_succ, Nat.add_assoc, Nat.add_comm 1]
      have split : (∃ i x, (o :: l)[i]? = some (some x) ∧ b ∈ body (n + i) x) ↔
          (∃ x, o = some x ∧ b ∈ body n x) ∨
            ∃ i x, (o :: l)[i + 1]? = some (some x) ∧ b ∈ body (n + (i + 1)) x := by
        constructor
        · rintro ⟨i, x, at_, mem⟩
          cases i with
          | zero => exact .inl ⟨x, Option.some.inj at_, mem⟩
          | succ i => exact .inr ⟨i, x, at_, mem⟩
        · rintro (⟨x, rfl, mem⟩ | ⟨i, x, at_, mem⟩)
          · exact ⟨0, x, rfl, mem⟩
          · exact ⟨i + 1, x, at_, mem⟩
      rw [split, ← later, ← ih]
      cases o with
      | none => exact (or_iff_right (by rintro ⟨x, none, -⟩; cases none)).symm
      | some x =>
          rw [eachInstance, List.mem_append]
          exact or_congr_left ⟨fun mem => ⟨x, rfl, mem⟩, by rintro ⟨y, ⟨rfl⟩, mem⟩; exact mem⟩

theorem pairwise_eachInstance {R : β → β → Prop} (inner : ∀ i x, (body i x).Pairwise R)
    (outer : ∀ i j x y a b, i < j → a ∈ body i x → b ∈ body j y → R a b) (n : Nat) (l : List (Option α)) :
    (eachInstance body n l).Pairwise R := by
  induction l generalizing n with
  | nil => exact .nil
  | cons o l ih =>
      cases o with
      | none => exact ih (n + 1)
      | some x =>
          refine List.pairwise_append.mpr ⟨inner n x, ih (n + 1), fun a first b later => ?_⟩
          obtain ⟨i, y, -, mem⟩ := (mem_eachInstance (n + 1) l).mp later
          exact outer n (n + 1 + i) x y a b (by omega) first mem

end Loops

section Places

variable {layouts : Layouts} {h : Hint}

theorem mem_worldPlaces {i j dim k w : Nat} {p : Place} :
    p ∈ worldPlaces h i j dim k w ↔ p = ⟨i, j, k, w, dim⟩ ∧ (h.match_ &&& matchWorld ≠ 0 → h.wld.toNat = k) := by
  unfold worldPlaces
  by_cases skip : h.match_ &&& matchWorld ≠ 0 ∧ h.wld.toNat ≠ k
  · rw [if_pos skip]
    exact iff_of_false nofun fun all => skip.2 (all.2 skip.1)
  · rw [if_neg skip, List.mem_singleton]
    exact (and_iff_left fun asks => Decidable.not_not.mp fun ne => skip ⟨asks, ne⟩).symm

theorem mem_graphPlaces {i j : Nat} {grf : Graph} {p : Place} :
    p ∈ graphPlaces h i j grf ↔ (∃ k w, grf.worlds[k]? = some (some w) ∧ p ∈ worldPlaces h i j grf.dim k w) ∧
      (h.match_ &&& matchGraph ≠ 0 → h.grf.toNat = j) := by
  unfold graphPlaces
  by_cases skip : h.match_ &&& matchGraph ≠ 0 ∧ h.grf.toNat ≠ j
  · rw [if_pos skip]
    exact iff_of_false nofun fun all => skip.2 (all.2 skip.1)
  · rw [if_neg skip, mem_eachInstance]
    simp only [Nat.zero_add]
    exact (and_iff_left fun asks => Decidable.not_not.mp fun ne => skip ⟨asks, ne⟩).symm

theorem mem_layoutPlaces {i : Nat} {graphs : List (Option Graph)} {p : Place} :
    p ∈ layoutPlaces h i graphs ↔ (∃ j grf, graphs[j]? = some (some grf) ∧ p ∈ graphPlaces h i j grf) ∧
      (h.match_ &&& matchLayout ≠ 0 → h.lay.toNat = i) := by
  unfold layoutPlaces
  by_cases skip : h.match_ &&& matchLayout ≠ 0 ∧ h.lay.toNat ≠ i
  · rw [if_pos skip]
    exact iff_of_false nofun fun all => skip.2 (all.2 skip.1)
  · rw [if_neg skip, mem_eachInstance]
    simp only [Nat.zero_add]
    exact (and_iff_left fun asks => Decidable.not_not.mp fun ne => skip ⟨asks, ne⟩).symm

/-- The loops get to the worlds that are chosen. -/
theorem mem_places (p : Place) : p ∈ places layouts h ↔ Chosen layouts h p := by
  unfold places Chosen At Hint.Selects
  rw [mem_eachInstance]
  simp only [Nat.zero_add, mem_layoutPlaces, mem_graphPlaces, mem_worldPlaces]
  constructor
  · rintro ⟨i, graphs, atLay, ⟨j, g, atGrf, ⟨k, w, atWld, rfl, okWld⟩, okGrf⟩, okLay⟩
    exact ⟨⟨graphs, g, atLay, atGrf, atWld, rfl⟩, okLay, okGrf, okWld⟩
  · rintro ⟨⟨graphs, g, atLay, atGrf, atWld, dim⟩, okLay, okGrf, okWld⟩
    refine ⟨p.lay, graphs, atLay, ⟨p.grf, g, atGrf, ⟨p.wld, p.world, atWld, ?_, okWld⟩, okGrf⟩, okLay⟩
    rw [← dim]

/-- The indices of a world -/
def Place.path (p : Place) : Nat × Nat × Nat := (p.lay, p.grf, p.wld)

theorem path_graphPlaces {i j : Nat} {grf : Graph} {p : Place} (mem : p ∈ graphPlaces h i j grf) :
    p.lay = i ∧ p.grf = j := by
  obtain ⟨⟨k, w, -, mem⟩, -⟩ := mem_graphPlaces.mp mem
  rw [(mem_worldPlaces.mp mem).1]
  exact ⟨rfl, rfl⟩

theorem path_layoutPlaces {i : Nat} {graphs : List (Option Graph)} {p : Place}
    (mem : p ∈ layoutPlaces h i graphs) : p.lay = i := by
  obtain ⟨⟨j, g, -, mem⟩, -⟩ := mem_layoutPlaces.mp mem
  exact (path_graphPlaces mem).1

/-- No indices occur twice. -/
theorem places_distinct (layouts : Layouts) (h : Hint) :
    (places layouts h).Pairwise fun p q => p.path ≠ q.path := by
  refine pairwise_eachInstance (fun i graphs => ?_) (fun i i' x y p q less first later => ?_) 0 layouts
  · unfold layoutPlaces
    split
    · exact .nil
    refine pairwise_eachInstance (fun j grf => ?_) (fun j j' x y p q less first later => ?_) 0 graphs
    · unfold graphPlaces
      split
      · exact .nil
      refine pairwise_eachInstance (fun k wld => ?_) (fun k k' x y p q less first later => ?_) 0 grf.worlds
      · unfold worldPlaces
        split
        · exact .nil
        · exact List.pairwise_singleton _ _
      · intro same
        rw [(mem_worldPlaces.mp first).1, (mem_worldPlaces.mp later).1] at same
        exact Nat.ne_of_lt less (congrArg (·.2.2) same)
    · intro same
      have grf := congrArg (·.2.1) same
      simp only [Place.path, (path_graphPlaces first).2, (path_graphPlaces later).2] at grf
      omega
  · intro same
    have lay := congrArg (·.1) same
    simp only [Place.path, path_layoutPlaces first, path_layoutPlaces later] at lay
    omega

/-- With less than 256 entries the indices are kept by the key. -/
theorem key_path (small : Small layouts) {p q : Place} (hp : Chosen layouts h p) (hq : Chosen layouts h q)
    (same : p.key.lay = q.key.lay ∧ p.key.grf = q.key.grf ∧ p.key.wld = q.key.wld) : p.path = q.path := by
  have bound : ∀ p, Chosen layouts h p → p.lay < 256 ∧ p.grf < 256 ∧ p.wld < 256 := by
    rintro p ⟨⟨graphs, g, atLay, atGrf, atWld, -⟩, -⟩
    obtain ⟨lay, inner⟩ := small
    obtain ⟨grf, inner⟩ := inner graphs (List.mem_of_getElem? atLay)
    have wld := inner g (List.mem_of_getElem? atGrf)
    have := (List.getElem?_eq_some_iff.mp atLay).1
    have := (List.getElem?_eq_some_iff.mp atGrf).1
    have := (List.getElem?_eq_some_iff.mp atWld).1
    exact ⟨by omega, by omega, by omega⟩
  have back : ∀ a b : Nat, a < 256 → b < 256 → UInt8.ofNat a = UInt8.ofNat b → a = b := by
    intro a b la lb eq
    have := congrArg UInt8.toNat eq
    rwa [UInt8.toNat_ofNat_of_lt' la, UInt8.toNat_ofNat_of_lt' lb] at this
  obtain ⟨la, ga, wa⟩ := bound p hp
  obtain ⟨lb, gb, wb⟩ := bound q hq
  obtain ⟨lay, grf, wld⟩ := same
  unfold Place.path
  rw [back _ _ la lb lay, back _ _ ga gb grf, back _ _ wa wb wld]

end Places

theorem matches_iff (key dst : LayDest) (flg : UInt8) :
    matches_ key dst flg = true ↔ (flg &&& matchLayout ≠ 0 → key.lay = dst.lay) ∧
      (flg &&& matchGraph ≠ 0 → key.grf = dst.grf) ∧ (flg &&& matchWorld ≠ 0 → key.wld = dst.wld) ∧
        (flg &&& matchDimension ≠ 0 → key.dim = dst.dim) := by
  unfold matches_
  grind

theorem matches_all (key dst : LayDest) : matches_ key dst matchAll = true ↔ key = dst := by
  rw [matches_iff]
  constructor
  · rintro ⟨lay, grf, wld, dim⟩
    obtain ⟨lay', grf', wld', dim'⟩ := key
    cases lay (by decide)
    cases grf (by decide)
    cases wld (by decide)
    cases dim (by decide)
    rfl
  · rintro rfl
    exact ⟨fun _ => rfl, fun _ => rfl, fun _ => rfl, fun _ => rfl⟩

theorem matches_path (key dst : LayDest) :
    matches_ key dst matchPath = true ↔ key.lay = dst.lay ∧ key.grf = dst.grf ∧ key.wld = dst.wld := by
  rw [matches_iff]
  constructor
  · rintro ⟨lay, grf, wld, -⟩
    exact ⟨lay (by decide), grf (by decide), wld (by decide)⟩
  · rintro ⟨lay, grf, wld⟩
    exact ⟨fun _ => lay, fun _ => grf, fun _ => wld, fun asks => absurd asks (by decide)⟩

/-! ## Registration -/

section Registration

variable {cycles : Nat → Option Nat} {d : List Entry} {layouts : Layouts} {h : Hint}

theorem set_known {key : LayDest} (known : ∃ e ∈ d, e.key = key) (value : Option Nat) :
    set d key value = none := by
  obtain ⟨e, mem, same⟩ := known
  have found : get d key = some d.length :=
    if_pos (List.any_eq_true.mpr ⟨e, mem, (matches_all e.key key).mpr same⟩)
  unfold set
  rw [found]
  simp

theorem set_new {key : LayDest} (new : ∀ e ∈ d, e.key ≠ key) (value : Option Nat) :
    set d key value = some (d ++ [⟨key, value⟩]) := by
  have absent : get d key = none := by
    refine if_neg fun any => ?_
    obtain ⟨e, mem, same⟩ := List.any_eq_true.mp any
    exact new e mem ((matches_all e.key key).mp same)
  unfold set
  rw [absent]

/-- The entry for a world -/
def Place.entry (cycles : Nat → Option Nat) (p : Place) : Entry := ⟨p.key, cycles p.world⟩

theorem registers_new {ps : List Place} (distinct : ps.Pairwise fun p q => p.key ≠ q.key)
    (new : ∀ p ∈ ps, ∀ e ∈ d, e.key ≠ p.key) (n : Nat) :
    ps.foldlM (setStep cycles) (d, n) = some (d ++ ps.map (Place.entry cycles), n + ps.length) := by
  induction ps generalizing d n with
  | nil => simp
  | cons p ps ih =>
      obtain ⟨first, rest⟩ := List.pairwise_cons.mp distinct
      have later : ∀ q ∈ ps, ∀ e ∈ d ++ [p.entry cycles], e.key ≠ q.key := by
        intro q mem e known
        rcases List.mem_append.mp known with known | known
        · exact new q (List.mem_cons_of_mem p mem) e known
        · rw [List.mem_singleton.mp known]
          exact first q mem
      have step : setStep cycles (d, n) p = some (d ++ [p.entry cycles], n + 1) := by
        unfold setStep
        rw [set_new (new p List.mem_cons_self)]
        rfl
      rw [List.foldlM_cons, step, Option.bind_eq_bind, Option.bind_some, ih rest later]
      simp [Nat.add_assoc, Nat.add_comm 1]

theorem registers_known {ps : List Place} (known : ∃ p ∈ ps, ∃ e ∈ d, e.key = p.key) (n : Nat) :
    ps.foldlM (setStep cycles) (d, n) = none := by
  induction ps generalizing d n with
  | nil =>
      obtain ⟨p, mem, -⟩ := known
      cases mem
  | cons p ps ih =>
      rw [List.foldlM_cons]
      by_cases here : ∃ e ∈ d, e.key = p.key
      · unfold setStep
        rw [set_known here]
        rfl
      · have step : setStep cycles (d, n) p = some (d ++ [p.entry cycles], n + 1) := by
          unfold setStep
          rw [set_new fun e mem same => here ⟨e, mem, same⟩]
          rfl
        rw [step, Option.bind_eq_bind, Option.bind_some]
        obtain ⟨q, mem, e, at_, same⟩ := known
        rcases List.mem_cons.mp mem with rfl | mem
        · exact absurd ⟨e, at_, same⟩ here
        · exact ih ⟨q, mem, e, List.mem_append_left _ at_, same⟩ _

/-- No entry has the key of a chosen world. -/
def Unused (d : List Entry) (layouts : Layouts) (h : Hint) : Prop :=
  ∀ p, Chosen layouts h p → ∀ e ∈ d, e.key ≠ p.key

theorem keys_distinct (small : Small layouts) (h : Hint) :
    (places layouts h).Pairwise fun p q => p.key ≠ q.key := by
  refine (places_distinct layouts h).imp_of_mem fun hp hq differ same => differ ?_
  refine key_path small ((mem_places _).mp hp) ((mem_places _).mp hq) ?_
  rw [same]
  exact ⟨rfl, rfl, rfl⟩

theorem setCycles_eq (small : Small layouts) (unused : Unused d layouts h) :
    setCycles cycles d layouts h =
      some (d ++ (places layouts h).map (Place.entry cycles), (places layouts h).length) := by
  unfold setCycles
  rw [registers_new (keys_distinct small h) (fun p mem => unused p ((mem_places p).mp mem)), Nat.zero_add]

/-- Worlds are registered unless one of their keys is there already. -/
theorem registers_iff (cycles : Nat → Option Nat) (small : Small layouts) :
    Registers cycles d layouts h ↔ Unused d layouts h := by
  constructor
  · rintro ⟨added, run, -⟩ p chosen e mem same
    unfold setCycles at run
    rw [registers_known ⟨p, (mem_places p).mpr chosen, e, mem, same⟩] at run
    cases run
  · intro unused
    refine ⟨(places layouts h).map (Place.entry cycles), ?_, ?_, fun e => ?_⟩
    · rw [setCycles_eq small unused, List.length_map]
    · rw [List.map_map]
      exact List.pairwise_map.mpr (keys_distinct small h)
    · rw [List.mem_map]
      simp only [mem_places, Place.entry, eq_comm (a := e)]

end Registration

/-! ## Restoring cycles -/

section Restore

variable {cycles now : Nat → Option Nat} {d : List Entry} {layouts : Layouts} {h : Hint}

/-- The values for the indices of a world -/
def vals (p : Place) (d : List Entry) : List (Option Nat) :=
  (d.filter fun e => matches_ e.key p.key matchPath).map Entry.value

theorem vals_cons (p : Place) (e : Entry) (d : List Entry) :
    vals p (e :: d) = if matches_ e.key p.key matchPath = true then e.value :: vals p d else vals p d := by
  unfold vals
  rw [List.filter_cons]
  split <;> rfl

theorem matches_dim (key dst : LayDest) (dim : UInt8) :
    matches_ { key with dim := dim } dst matchPath = matches_ key dst matchPath := by
  rw [Bool.eq_iff_iff, matches_path, matches_path]

theorem getLoop_vals (p q : Place) (d : List Entry) (cycles : Nat → Option Nat) (total : Nat) :
    vals q (getLoop p d cycles total).d = vals q d := by
  induction d generalizing cycles total with
  | nil => rfl
  | cons b rest ih =>
      unfold getLoop
      by_cases other : (!matches_ b.key p.key matchPath) = true
      · rw [if_pos other]
        simp only [vals_cons, ih]
      · rw [if_neg other]
        cases value : b.value with
        | none => rfl
        | some c =>
            simp only [vals_cons, ih, matches_dim, value]

/-- The last cycle before the first value that is empty -/
def lastCycle (values : List (Option Nat)) : Option Nat := (values.takeWhile Option.isSome).getLast?.join

theorem lastCycle_cons (c : Nat) (values : List (Option Nat)) :
    lastCycle (some c :: values) = (lastCycle values).or (some c) := by
  unfold lastCycle
  rw [List.takeWhile_cons_of_pos rfl]
  cases taken : values.takeWhile Option.isSome with
  | nil => rfl
  | cons x xs =>
      rw [List.getLast?_cons_cons]
      cases last : (x :: xs).getLast? with
      | none => cases List.getLast?_eq_none_iff.mp last
      | some y =>
          have mem : y ∈ values.takeWhile Option.isSome := taken ▸ List.mem_of_getLast? last
          obtain ⟨v, rfl⟩ := Option.isSome_iff_exists.mp
            (List.all_eq_true.mp List.all_takeWhile y mem)
          rfl

/-- The innermost loop gives the last cycle of the entries for a world. -/
theorem getLoop_cycles (p : Place) (d : List Entry) (now : Nat → Option Nat) (total w : Nat) :
    (getLoop p d now total).cycles w =
      if p.world = w then (lastCycle (vals p d)).or (now w) else now w := by
  induction d generalizing now total with
  | nil => simp [getLoop, vals, lastCycle]
  | cons b rest ih =>
      rw [vals_cons]
      unfold getLoop
      by_cases here : matches_ b.key p.key matchPath = true
      · rw [if_neg (by simp [here]), if_pos here]
        cases value : b.value with
        | none => simp [lastCycle]
        | some c =>
            simp only [ih, lastCycle_cons]
            by_cases same : p.world = w
            · subst same
              simp
            · rw [if_neg same, if_neg same, Function.update_of_ne (Ne.symm same)]
      · rw [if_pos (by simpa using here), if_neg here]
        exact ih now total

/-- The cycles that the entries have for a world, by its places -/
def brought (ps : List Place) (d : List Entry) (w : Nat) : List Nat :=
  ps.filterMap fun p => if p.world = w then lastCycle (vals p d) else none

theorem brought_vals {d d' : List Entry} (same : ∀ p, vals p d = vals p d') (ps : List Place) (w : Nat) :
    brought ps d w = brought ps d' w := by
  unfold brought
  simp only [same]

/-- All loops of `get_cycles` -/
theorem loads (ps : List Place) (s : Loaded) (w : Nat) :
    (ps.foldl (fun s p => getLoop p s.d s.cycles s.total) s).cycles w =
      (brought ps s.d w).getLast?.or (s.cycles w) := by
  induction ps generalizing s with
  | nil => rfl
  | cons p ps ih =>
      rw [List.foldl_cons, ih, getLoop_cycles,
        brought_vals (fun q => getLoop_vals p q s.d s.cycles s.total) ps w]
      unfold brought
      rw [List.filterMap_cons]
      by_cases same : p.world = w
      · simp only [if_pos same]
        cases lastCycle (vals p s.d) with
        | none => rfl
        | some c =>
            rw [List.getLast?_cons, Option.some_or, Option.some_or]
            cases (ps.filterMap fun p => if p.world = w then lastCycle (vals p s.d) else none).getLast?
            all_goals rfl
      · simp only [if_neg same]

theorem filter_one {α : Type} {f : α → Bool} {p : α} {l : List α} (mem : p ∈ l) (here : f p = true)
    (once : l.Pairwise fun a b => ¬ (f a = true ∧ f b = true)) : l.filter f = [p] := by
  induction l with
  | nil => cases mem
  | cons a l ih =>
      obtain ⟨first, rest⟩ := List.pairwise_cons.mp once
      rcases List.mem_cons.mp mem with rfl | mem
      · rw [List.filter_cons_of_pos here, List.filter_eq_nil_iff.mpr fun b at_ fb => first b at_ ⟨here, fb⟩]
      · rw [List.filter_cons_of_neg fun fa => first p mem ⟨fa, here⟩, ih mem rest]

/-- The new entry for the indices of a world comes behind those there were. -/
theorem vals_new (small : Small layouts) {p : Place} (mem : p ∈ places layouts h) :
    vals p (d ++ (places layouts h).map (Place.entry cycles)) = vals p d ++ [cycles p.world] := by
  have chosen := (mem_places p).mp mem
  have back : (places layouts h).filter (fun q => matches_ q.key p.key matchPath) = [p] := by
    refine filter_one mem ((matches_path _ _).mpr ⟨rfl, rfl, rfl⟩) ?_
    refine (places_distinct layouts h).imp_of_mem fun ha hb differ same => differ ?_
    have a := key_path small ((mem_places _).mp ha) chosen ((matches_path _ _).mp same.1)
    have b := key_path small ((mem_places _).mp hb) chosen ((matches_path _ _).mp same.2)
    exact a.trans b.symm
  unfold vals
  rw [List.filter_append, List.map_append, List.filter_map, List.map_map]
  exact congrArg (_ ++ List.map _ ·) back

/-- For each chosen world, the last of its places that has a cycle, by the entries there were and then
    the new one, has that of the world. -/
def Regains (cycles : Nat → Option Nat) (d : List Entry) (layouts : Layouts) (h : Hint) : Prop :=
  ∀ p, Chosen layouts h p →
    ((places layouts h).filterMap fun q =>
      if q.world = p.world then lastCycle (vals q d ++ [cycles q.world]) else none).getLast? =
        cycles p.world

theorem brought_new (small : Small layouts) (w : Nat) :
    brought (places layouts h) (d ++ (places layouts h).map (Place.entry cycles)) w =
      (places layouts h).filterMap fun q =>
        if q.world = w then lastCycle (vals q d ++ [cycles q.world]) else none :=
  List.filterMap_congr fun q mem => by rw [vals_new small mem]

theorem givesBack_iff (small : Small layouts) (unused : Unused d layouts h) :
    GivesBack cycles d layouts h ↔ Regains cycles d layouts h := by
  have all := fun now => loads (places layouts h)
    ⟨d ++ (places layouts h).map (Place.entry cycles), now, 0⟩
  unfold GivesBack Regains
  rw [setCycles_eq small unused]
  constructor
  · intro back p chosen
    have none_ := (back _ _ rfl fun _ => none).1 p chosen
    unfold getCycles at none_
    rw [all, brought_new small, Option.or_none, Option.or_none] at none_
    exact none_
  · intro regains d' n run now
    obtain ⟨rfl, -⟩ := Prod.mk.inj (Option.some.inj run)
    unfold getCycles
    refine ⟨fun p chosen => ?_, fun w other => ?_⟩
    · rw [all, brought_new small, regains p chosen]
    · have nothing : brought (places layouts h)
          (d ++ (places layouts h).map (Place.entry cycles)) w = [] :=
        List.filterMap_eq_nil_iff.mpr fun p mem => if_neg (other p ((mem_places p).mp mem))
      rw [all, nothing]
      rfl

/-- No entry has the indices of a chosen world, with any dimensions. -/
def Fresh (d : List Entry) (layouts : Layouts) (h : Hint) : Prop :=
  ∀ p, Chosen layouts h p → ∀ e ∈ d,
    ¬ (e.key.lay = p.key.lay ∧ e.key.grf = p.key.grf ∧ e.key.wld = p.key.wld)

/-- Without entries for them all chosen worlds can be registered and regain their cycles, also those
    that are shared. -/
theorem Fresh.regains (fresh : Fresh d layouts h) :
    Unused d layouts h ∧ Regains cycles d layouts h := by
  refine ⟨fun p chosen e mem same => fresh p chosen e mem (by rw [same]; exact ⟨rfl, rfl, rfl⟩),
    fun p chosen => ?_⟩
  have new : ∀ q ∈ places layouts h, lastCycle (vals q d ++ [cycles q.world]) = cycles q.world := by
    intro q mem
    have front : d.filter (fun e => matches_ e.key q.key matchPath) = [] :=
      List.filter_eq_nil_iff.mpr fun e at_ same =>
        fresh q ((mem_places q).mp mem) e at_ ((matches_path _ _).mp same)
    unfold vals lastCycle
    rw [front]
    cases cycles q.world <;> rfl
  have same : ((places layouts h).filterMap fun q =>
      if q.world = p.world then lastCycle (vals q d ++ [cycles q.world]) else none) =
      (places layouts h).filterMap fun q => if q.world = p.world then cycles p.world else none := by
    refine List.filterMap_congr fun q mem => ?_
    rw [new q mem]
    by_cases here : q.world = p.world
    · rw [if_pos here, if_pos here, here]
    · rw [if_neg here, if_neg here]
  rw [same]
  cases value : cycles p.world with
  | none =>
      rw [List.filterMap_eq_nil_iff.mpr fun q _ => ite_self none]
      rfl
  | some c =>
      cases last : ((places layouts h).filterMap fun q =>
          if q.world = p.world then some c else none).getLast? with
      | none =>
          have nothing := List.filterMap_eq_nil_iff.mp (List.getLast?_eq_none_iff.mp last) p
            ((mem_places p).mpr chosen)
          rw [if_pos rfl] at nothing
          cases nothing
      | some c' =>
          obtain ⟨q, _, given⟩ := List.mem_filterMap.mp (List.mem_of_getLast? last)
          split at given
          · exact given.symm
          · cases given

end Restore

/-! ## Clearing -/

/-- For the entries that are left to it, the comparison with the graph is that with the world. -/
def ClearsRight (h : Hint) (d : List Entry) : Prop :=
  ∀ e ∈ d, e.value.isSome = true → (h.match_ &&& matchLayout ≠ 0 → h.lay = e.key.lay) →
    (h.match_ &&& matchGraph ≠ 0 → h.grf = e.key.grf) → h.match_ &&& matchWorld ≠ 0 →
      (e.key.grf = h.wld ↔ e.key.wld = h.wld)

/-- What the code clears -/
def Hint.cleared (h : Hint) (e : Entry) : Bool :=
  e.value.isSome && !decide (h.match_ &&& matchLayout ≠ 0 ∧ e.key.lay ≠ h.lay) &&
    !decide (h.match_ &&& matchGraph ≠ 0 ∧ e.key.grf ≠ h.grf) &&
      !decide (h.match_ &&& matchWorld ≠ 0 ∧ e.key.grf ≠ h.wld)

theorem clearCycles_eq (h : Hint) (d : List Entry) :
    clearCycles h d = (d.map fun e => if h.cleared e then { e with value := none } else e,
      (d.filter h.cleared).length) := by
  induction d with
  | nil => rfl
  | cons e d ih =>
      rw [clearCycles, ih]
      simp only
      by_cases lay : h.match_ &&& matchLayout ≠ 0 ∧ e.key.lay ≠ h.lay
      · have left : h.cleared e = false := by simp [Hint.cleared, lay]
        simp [if_pos lay, left]
      by_cases grf : h.match_ &&& matchGraph ≠ 0 ∧ e.key.grf ≠ h.grf
      · have left : h.cleared e = false := by simp [Hint.cleared, grf]
        simp [if_pos grf, left]
      by_cases wld : h.match_ &&& matchWorld ≠ 0 ∧ e.key.grf ≠ h.wld
      · have left : h.cleared e = false := by simp [Hint.cleared, wld]
        simp [if_pos wld, left]
      rw [if_neg lay, if_neg grf, if_neg wld]
      by_cases empty : e.value.isNone = true
      · have left : h.cleared e = false := by simp [Hint.cleared, Option.isNone_iff_eq_none.mp empty]
        simp [empty, left]
      · have gone : h.cleared e = true := by
          unfold Hint.cleared
          rw [decide_eq_false lay, decide_eq_false grf, decide_eq_false wld]
          simpa [Option.isSome_iff_ne_none] using empty
        simp [empty, gone]

theorem cleared_iff (h : Hint) (e : Entry) : h.cleared e = true ↔ e.value.isSome = true ∧
    (h.match_ &&& matchLayout ≠ 0 → h.lay = e.key.lay) ∧ (h.match_ &&& matchGraph ≠ 0 → h.grf = e.key.grf) ∧
      (h.match_ &&& matchWorld ≠ 0 → e.key.grf = h.wld) := by
  unfold Hint.cleared
  simp only [Bool.and_eq_true, Bool.not_eq_true', decide_eq_false_iff_not, not_and, Decidable.not_not, and_assoc,
    eq_comm (b := h.lay), eq_comm (b := h.grf)]

theorem clears_iff (h : Hint) (e : Entry) : h.clears e = true ↔ e.value.isSome = true ∧
    (h.match_ &&& matchLayout ≠ 0 → h.lay = e.key.lay) ∧ (h.match_ &&& matchGraph ≠ 0 → h.grf = e.key.grf) ∧
      (h.match_ &&& matchWorld ≠ 0 → e.key.wld = h.wld) := by
  unfold Hint.clears
  rw [Bool.and_eq_true, decide_eq_true_iff]
  unfold Hint.Selects
  simp only [UInt8.toNat_inj, eq_comm (b := h.wld)]

theorem clearCycles_iff (h : Hint) (d : List Entry) : Clears h d ↔ ClearsRight h d := by
  have same : Clears h d ↔ ∀ e ∈ d, h.cleared e = h.clears e := by
    unfold Clears
    rw [clearCycles_eq]
    constructor
    · intro eq e mem
      have entry := List.map_inj_left.mp (congrArg Prod.fst eq) e mem
      have value : ∀ f : Bool, f = true → e.value.isSome = true →
          (if f then ({ e with value := none } : Entry) else e).value = none := by
        rintro f rfl -
        rfl
      rw [Bool.eq_iff_iff]
      constructor
      · intro gone
        have some_ := ((cleared_iff h e).mp gone).1
        by_contra stays
        rw [if_pos gone, if_neg stays] at entry
        rw [← entry] at some_
        cases some_
      · intro gone
        have some_ := ((clears_iff h e).mp gone).1
        by_contra stays
        rw [if_neg stays, if_pos gone] at entry
        rw [entry] at some_
        cases some_
    · intro all
      refine Prod.ext (List.map_congr_left fun e mem => ?_) (congrArg List.length (List.filter_congr all))
      simp only [all e mem]
  rw [same]
  refine forall₂_congr fun e _ => ?_
  rw [Bool.eq_iff_iff, cleared_iff, clears_iff]
  constructor
  · intro eq some_ lay grf asks
    constructor
    · exact fun wld => (eq.mp ⟨some_, lay, grf, fun _ => wld⟩).2.2.2 asks
    · exact fun wld => (eq.mpr ⟨some_, lay, grf, fun _ => wld⟩).2.2.2 asks
  · intro right
    constructor
    · rintro ⟨some_, lay, grf, wld⟩
      exact ⟨some_, lay, grf, fun asks => (right some_ lay grf asks).mp (wld asks)⟩
    · rintro ⟨some_, lay, grf, wld⟩
      exact ⟨some_, lay, grf, fun asks => (right some_ lay grf asks).mpr (wld asks)⟩

/-! ## All three functions -/

/-- What is registered for a hint comes back with it, and what another hint selects is cleared. -/
def Kept (cycles : Nat → Option Nat) (d : List Entry) (layouts : Layouts) (h : Hint) (reg : List Entry)
    (hint : Hint) : Prop :=
  Registers cycles d layouts h ∧ GivesBack cycles d layouts h ∧ Clears hint reg

/-- All is kept exactly where no entry has the key of a chosen world, the entries with its indices
    do not hide its cycle, and the graphs of the entries agree with the hint if the worlds do. -/
theorem cycles_kept (cycles : Nat → Option Nat) (d : List Entry) (layouts : Layouts) (h : Hint)
    (reg : List Entry) (hint : Hint) (small : Small layouts) :
    Kept cycles d layouts h reg hint ↔
      Unused d layouts h ∧ Regains cycles d layouts h ∧ ClearsRight hint reg := by
  unfold Kept
  rw [registers_iff cycles small, clearCycles_iff]
  exact and_congr_right fun unused => and_congr_left fun _ => givesBack_iff small unused

/-- A layout with one graph that has one world -/
def oneWorld : Layouts := [some [some ⟨2, [none, some 5]⟩]]

theorem oneWorld_small : Small oneWorld := by
  refine ⟨by decide, fun graphs mem => ?_⟩
  cases Option.some.inj (List.mem_singleton.mp mem)
  refine ⟨by decide, fun grf mem => ?_⟩
  cases Option.some.inj (List.mem_singleton.mp mem)
  decide

theorem one_kept : Kept (fun _ => some 1) [⟨⟨0, 0, 1, 2⟩, some 9⟩] oneWorld ⟨0, 0, 0, 0⟩
    [⟨⟨0, 0, 0, 0⟩, some 7⟩] ⟨4, 0, 0, 0⟩ := by
  refine (cycles_kept (fun _ => some 1) [⟨⟨0, 0, 1, 2⟩, some 9⟩] oneWorld ⟨0, 0, 0, 0⟩
    [⟨⟨0, 0, 0, 0⟩, some 7⟩] ⟨4, 0, 0, 0⟩ oneWorld_small).mpr ⟨?_, ?_, ?_⟩
  · intro p _ e mem same
    rw [List.mem_singleton.mp mem] at same
    exact absurd (congrArg LayDest.dim same) (show (2 : UInt8) ≠ 0 by decide)
  · intro p chosen
    have only : p ∈ [(⟨0, 0, 1, 5, 2⟩ : Place)] := (mem_places p).mpr chosen
    rw [List.mem_singleton.mp only]
    rfl
  · intro e mem _ _ _ _
    rw [List.mem_singleton.mp mem]

/-- The first world of the second graph is not cleared with the first worlds. -/
theorem second_graph_left : ¬ Kept (fun _ => some 1) [] oneWorld ⟨0, 0, 0, 0⟩ [⟨⟨0, 1, 0, 0⟩, some 7⟩]
    ⟨4, 0, 0, 0⟩ := by
  rintro ⟨-, -, clears⟩
  unfold Clears at clears
  exact absurd clears (by decide)

end Mpt.Plot.Cycles
