import Mpt.Core
import Mathlib.Data.List.Nodup

/-! # Bindings of sources to layouts

The bindings are the elements of one array.  Adding one searches the others of its
client; deleting clears states first and then closes the gaps.
-/

namespace Mpt.Plot

/-- `struct valsrc` -/
structure ValSrc where
  dim : UInt8
  state : UInt8
  deriving Repr, DecidableEq

/-- `struct laydest` -/
structure LayDest where
  lay : UInt8
  grf : UInt8
  wld : UInt8
  dim : UInt8
  deriving Repr, DecidableEq

/-- `struct mapping` -/
structure Mapping where
  src : ValSrc
  client : UInt16
  dest : LayDest
  deriving Repr, DecidableEq

/-- The search of `mpt_mapping_add`: the elements and the result, if it ends there. -/
def addLoop (add : Mapping) : (i : Nat) → List Mapping → Option (List Mapping × Int)
  | _, [] => none
  | i, map :: rest =>
      -- binding not mergeable
      if map.client ≠ add.client ∨
          (map.dest.lay = add.dest.lay ∧ map.dest.grf = add.dest.grf ∧
            map.dest.wld = add.dest.wld ∧ map.dest.dim = add.dest.dim) then
        (addLoop add (i + 1) rest).map fun (rest, ret) => (map :: rest, ret)
      -- conflicting sources
      else if map.src.dim ≠ add.src.dim then
        some (map :: rest, -3)
      -- add mapping states
      else
        some ({ map with src := { map.src with state := map.src.state ||| add.src.state } } :: rest,
          i + 1)

/-- `mpt_mapping_add`, when `mpt_array_append` is granted the memory or not. -/
def mappingAdd (t : List Mapping) (add : Mapping) (granted : Bool) : List Mapping × Int :=
  match addLoop add 0 t with
  | some result => result
  | none => if granted then (t ++ [add], 0) else (t, -1)

/-- The first loop of `mpt_mapping_del` at one binding, and whether it counts. -/
def Mapping.clear (map : Mapping) (src : Option ValSrc) (dst : Option LayDest) (cli : Int) :
    Mapping × Bool :=
  -- binding not mergeable
  if (map.client.toNat : Int) ≠ cli then
    (map, false)
  else if dst.any fun dst => map.dest.lay ≠ dst.lay ∨ map.dest.grf ≠ dst.grf ∨
      map.dest.wld ≠ dst.wld ∨ map.dest.dim ≠ dst.dim then
    (map, false)
  else
    match src with
    | none => ({ map with src := { map.src with state := 0 } }, true)
    | some src =>
        if map.src.dim ≠ src.dim then
          (map, false)
        else
          ({ map with src := { map.src with state := map.src.state &&& ~~~src.state } }, true)

/-- The search for the next free position before `i`. -/
def freeLoop (t : List Mapping) (empty i : Nat) : (fuel : Nat) → Nat
  | 0 => empty
  | fuel + 1 =>
      if empty < i then
        match t[empty]? with
        | none => empty
        | some map => if map.src.state = 0 then empty else freeLoop t (empty + 1) i fuel
      else
        empty

/-- The second loop of `mpt_mapping_del`, which moves bindings to free positions. -/
def moveLoop (t : List Mapping) (i used : Nat) (empty : Option Nat) : (todo : Nat) →
    List Mapping × Nat
  | 0 => (t, used)
  | todo + 1 =>
      match t[i]? with
      | none => (t, used)
      | some map =>
          if map.src.state = 0 then
            moveLoop t (i + 1) used (some (empty.getD i)) todo
          else
            match empty with
            -- no smaller position available
            | none => moveLoop t (i + 1) (used + 1) none todo
            | some e =>
                -- move command entry
                let t := (t.set e map).set i { map with src := { map.src with state := 0 } }
                moveLoop t (i + 1) (used + 1) (some (freeLoop t (e + 1) i (i - e))) todo

/-- `mpt_mapping_del`: the bindings and the number of those that were found. -/
def mappingDel (t : List Mapping) (src : Option ValSrc) (dst : Option LayDest) (cli : Int) :
    List Mapping × Nat :=
  let marked := t.map fun map => map.clear src dst cli
  let del := (marked.filter fun p => p.2).length
  let t := marked.map Prod.fst
  if del = 0 then
    (t, del)
  else
    let (t, used) := moveLoop t 0 0 none t.length
    (t.take used, del)

/-- A binding that has states. -/
def Mapping.live (map : Mapping) : Bool := map.src.state ≠ 0

variable {t : List Mapping} {add : Mapping}

theorem freeLoop_next (front zeros back : List Mapping) (i fuel : Nat)
    (empty : ∀ z ∈ zeros, z.src.state = 0) (end_ : front.length + zeros.length = i) :
    freeLoop (front ++ zeros ++ back) front.length i fuel = front.length := by
  cases fuel with
  | zero => rfl
  | succ fuel =>
      cases zeros with
      | nil =>
          have stop : ¬ front.length < i := by simp at end_; omega
          rw [freeLoop, if_neg stop]
      | cons z zeros =>
          have more : front.length < i := by simp at end_; omega
          have found : (front ++ z :: zeros ++ back)[front.length]? = some z := by simp
          rw [freeLoop, if_pos more, found]
          simp only [empty z (by simp), if_true]

/-- The bindings that have states come to the front, in their order. -/
theorem moveLoop_spec (todo front zeros : List Mapping) (empty : ∀ z ∈ zeros, z.src.state = 0) :
    ∃ rest, moveLoop (front ++ zeros ++ todo) (front.length + zeros.length) front.length
        (if zeros = [] then none else some front.length) todo.length =
      (front ++ todo.filter Mapping.live ++ rest,
        (front ++ todo.filter Mapping.live).length) := by
  induction todo generalizing front zeros with
  | nil =>
      refine ⟨zeros, ?_⟩
      simp [moveLoop]
  | cons map todo ih =>
      have here : (front ++ zeros ++ map :: todo)[front.length + zeros.length]? = some map := by
        rw [← List.length_append]
        simp
      rw [List.length_cons, moveLoop, here]
      by_cases dead : map.src.state = 0
      · simp only [if_pos dead]
        have step := ih front (zeros ++ [map]) (by
          intro z mem
          rcases List.mem_append.mp mem with mem | mem
          · exact empty z mem
          · rw [List.mem_singleton.mp mem]
            exact dead)
        have first : some ((if zeros = [] then none else some front.length).getD
            (front.length + zeros.length)) = if zeros ++ [map] = [] then none else
              some front.length := by
          cases zeros <;> simp
        rw [first]
        have skip : (map :: todo).filter Mapping.live = todo.filter Mapping.live := by
          simp [Mapping.live, dead]
        rw [skip]
        simpa [Nat.add_assoc] using step
      · have keep : (map :: todo).filter Mapping.live = map :: todo.filter Mapping.live := by
          simp [Mapping.live, dead]
        rw [keep]
        simp only [if_neg dead]
        cases zeros with
        | nil =>
            have step := ih (front ++ [map]) [] (by simp)
            simpa using step
        | cons z zeros =>
            simp only [reduceCtorEq, if_false]
            generalize gone : ({ map with src := { map.src with state := 0 } } : Mapping) = m₀
            have zero : m₀.src.state = 0 := by rw [← gone]
            have moved : ((front ++ z :: zeros ++ map :: todo).set front.length map).set
                (front.length + (z :: zeros).length) m₀ = front ++ [map] ++ (zeros ++ [m₀]) ++ todo := by
              simp
            have rest_empty : ∀ y ∈ zeros ++ [m₀], y.src.state = 0 := by
              intro y mem
              rcases List.mem_append.mp mem with mem | mem
              · exact empty y (by simp [mem])
              · rw [List.mem_singleton.mp mem]
                exact zero
            have step := ih (front ++ [map]) (zeros ++ [m₀]) rest_empty
            rw [moved]
            have free : freeLoop (front ++ [map] ++ (zeros ++ [m₀]) ++ todo) (front.length + 1)
                (front.length + (z :: zeros).length)
                (front.length + (z :: zeros).length - front.length) = front.length + 1 := by
              have next := freeLoop_next (front ++ [map]) zeros (m₀ :: todo)
                (front.length + (z :: zeros).length)
                (front.length + (z :: zeros).length - front.length)
                (fun y mem => empty y (List.mem_cons_of_mem z mem)) (by simp; omega)
              simpa using next
            rw [free]
            simpa [Nat.add_assoc, Nat.add_comm, Nat.add_left_comm] using step

/-- The states of all bindings, cleared; those without states are removed. -/
theorem mappingDel_eq (live : ∀ map ∈ t, map.live) (src : Option ValSrc) (dst : Option LayDest)
    (cli : Int) : (mappingDel t src dst cli).1 =
      (t.map fun map => (map.clear src dst cli).1).filter Mapping.live := by
  unfold mappingDel
  by_cases none : ((t.map fun map => map.clear src dst cli).filter fun p => p.2).length = 0
  · have same : (t.map fun map => (map.clear src dst cli).1) = t := by
      have other := List.filter_eq_nil_iff.mp (List.length_eq_zero_iff.mp none)
      conv_rhs => rw [← List.map_id t]
      refine List.map_congr_left fun map mem => ?_
      have not := other _ (List.mem_map_of_mem mem)
      revert not
      unfold Mapping.clear
      split
      · exact fun _ => rfl
      · split
        · exact fun _ => rfl
        · split
          · exact fun not => absurd rfl not
          · split
            · exact fun _ => rfl
            · exact fun not => absurd rfl not
    simp only [if_pos none, List.map_map]
    show t.map (fun map => (map.clear src dst cli).1) = _
    rw [same, List.filter_eq_self.mpr live]
  · simp only [if_neg none, List.map_map, Function.comp_def]
    obtain ⟨rest, run⟩ := moveLoop_spec (t.map fun map => (map.clear src dst cli).1) [] [] (by simp)
    simp only [List.nil_append, List.length_nil, Nat.add_zero, if_true] at run
    simp only [run]
    rw [List.take_left' rfl]

/-! ## The bindings as a map -/

/-- Client and destination. -/
def Mapping.key (map : Mapping) : UInt16 × LayDest := (map.client, map.dest)

/-- The source that is bound. -/
def source (t : List Mapping) (key : UInt16 × LayDest) : Option ValSrc :=
  (t.find? fun map => decide (map.key = key)).map Mapping.src

/-- What is to come out of an addition. -/
structure Added (t t' : List Mapping) (add : Mapping) (granted : Bool) (ret : Int) : Prop where
  known : ∀ src, source t add.key = some src → src.dim = add.src.dim →
    source t' add.key = some { src with state := src.state ||| add.src.state } ∧
      (∀ key, key ≠ add.key → source t' key = source t key) ∧
      t'.map Mapping.key = t.map Mapping.key ∧ 0 < ret
  conflict : ∀ src, source t add.key = some src → src.dim ≠ add.src.dim → t' = t ∧ ret = -3
  appended : source t add.key = none → granted = true → t' = t ++ [add] ∧ ret = 0
  refused : source t add.key = none → granted = false → t' = t ∧ ret = -1

/-- A binding without the states that are deleted. -/
def Mapping.without (map : Mapping) (src : Option ValSrc) (dst : Option LayDest) (cli : Int) :
    Mapping :=
  if (map.client.toNat : Int) = cli ∧ (∀ d ∈ dst, map.dest = d) ∧ (∀ s ∈ src, map.src.dim = s.dim) then
    { map with src := { map.src with state := match src with
        | none => 0
        | some s => map.src.state &&& ~~~s.state } }
  else
    map

/-- One operation on the bindings. -/
inductive Op where
  | add (map : Mapping) (granted : Bool)
  | del (src : Option ValSrc) (dst : Option LayDest) (cli : Int)

namespace Op

def run (t : List Mapping) : Op → List Mapping × Int
  | .add map granted => mappingAdd t map granted
  | .del src dst cli => ((mappingDel t src dst cli).1, (mappingDel t src dst cli).2)

/-- The operation does to the map what it is for. -/
def Right (t : List Mapping) : Op → Prop
  | .add map granted => Added t (mappingAdd t map granted).1 map granted (mappingAdd t map granted).2
  | .del src dst cli => (mappingDel t src dst cli).1 =
      (t.map fun map => map.without src dst cli).filter Mapping.live

/-- A new binding has a state. -/
def Live : Op → Prop
  | .add map _ => map.live
  | .del .. => True

/-- A new binding is the only one of its client. -/
def Alone (t : List Mapping) : Op → Prop
  | .add map _ => map.client ∉ t.map Mapping.client
  | .del .. => True

end Op

/-- All operations of a run do what they are for, and no key ever occurs twice. -/
def Behaves : (t : List Mapping) → List Op → Prop
  | t, [] => (t.map Mapping.key).Nodup
  | t, op :: ops => (t.map Mapping.key).Nodup ∧ op.Right t ∧ Behaves (op.run t).1 ops

/-- Whenever a binding is added, its client has no other. -/
def AllAlone : (t : List Mapping) → List Op → Prop
  | _, [] => True
  | t, op :: ops => op.Alone t ∧ AllAlone (op.run t).1 ops

theorem clear_eq (map : Mapping) (src : Option ValSrc) (dst : Option LayDest) (cli : Int) :
    (map.clear src dst cli).1 = map.without src dst cli := by
  unfold Mapping.clear Mapping.without
  by_cases client : (map.client.toNat : Int) = cli
  · rw [if_neg (not_not.mpr client)]
    have dest : (dst.any fun dst => map.dest.lay ≠ dst.lay ∨ map.dest.grf ≠ dst.grf ∨
        map.dest.wld ≠ dst.wld ∨ map.dest.dim ≠ dst.dim) = true ↔ ¬ ∀ d ∈ dst, map.dest = d := by
      cases dst with
      | none => simp
      | some d =>
          obtain ⟨lay, grf, wld, dim⟩ := d
          simp only [Option.any_some, Option.mem_some_iff, forall_eq', decide_eq_true_eq]
          rw [← not_and_or, ← not_and_or, ← not_and_or]
          refine not_congr ⟨fun same => ?_, fun same => ?_⟩
          · rw [← same.1, ← same.2.1, ← same.2.2.1, ← same.2.2.2]
          · rw [same]
            exact ⟨rfl, rfl, rfl, rfl⟩
    by_cases other : ∀ d ∈ dst, map.dest = d
    · rw [if_neg fun differs => dest.mp differs other]
      cases src with
      | none => rw [if_pos ⟨client, other, by simp⟩]
      | some src =>
          by_cases dim : map.src.dim = src.dim
          · rw [if_pos ⟨client, other, by simp [dim]⟩]
            simp [dim]
          · rw [if_neg fun all => dim (all.2.2 src rfl)]
            simp [dim]
    · rw [if_pos (dest.mpr other), if_neg fun all => other all.2.1]
  · rw [if_pos client, if_neg fun all => client all.1]

/-- Every client has one binding at most, and every binding has a state. -/
structure Single (t : List Mapping) : Prop where
  clients : (t.map Mapping.client).Nodup
  live : ∀ map ∈ t, map.live

theorem nodup_keys (single : Single t) : (t.map Mapping.key).Nodup := by
  have clients := single.clients
  have fst : t.map Mapping.client = (t.map Mapping.key).map Prod.fst := by
    rw [List.map_map]
    rfl
  rw [fst] at clients
  exact clients.of_map Prod.fst

theorem source_none (key : UInt16 × LayDest) : source t key = none ↔ key ∉ t.map Mapping.key := by
  unfold source
  simp only [Option.map_eq_none_iff, List.find?_eq_none, decide_eq_true_eq, List.mem_map, not_exists,
    not_and]

/-- Only bindings of the client to other destinations end the search. -/
theorem addLoop_none (i : Nat) :
    addLoop add i t = none ↔ ∀ map ∈ t, map.client = add.client → map.dest = add.dest := by
  induction t generalizing i with
  | nil => simp [addLoop]
  | cons map rest ih =>
      have dest : (map.dest.lay = add.dest.lay ∧ map.dest.grf = add.dest.grf ∧
          map.dest.wld = add.dest.wld ∧ map.dest.dim = add.dest.dim) ↔ map.dest = add.dest := by
        refine ⟨fun same => ?_, fun same => ?_⟩
        · cases h : map.dest
          cases h' : add.dest
          rw [h, h'] at same
          simp only [LayDest.mk.injEq]
          exact same
        · rw [same]
          exact ⟨rfl, rfl, rfl, rfl⟩
      simp only [addLoop, dest, List.forall_mem_cons]
      by_cases skip : map.client ≠ add.client ∨ map.dest = add.dest
      · rw [if_pos skip, Option.map_eq_none_iff, ih]
        refine ⟨fun all => ⟨fun client => ?_, all⟩, And.right⟩
        exact skip.resolve_left (not_not.mpr client)
      · rw [if_neg skip]
        obtain ⟨client, other⟩ := not_or.mp skip
        have false_ : ¬ ((map.client = add.client → map.dest = add.dest) ∧
            ∀ map ∈ rest, map.client = add.client → map.dest = add.dest) :=
          fun all => other (all.1 (not_not.mp client))
        split <;> simp [false_]

theorem addLoop_result {i : Nat} {t' : List Mapping} {ret : Int}
    (found : addLoop add i t = some (t', ret)) : ret = -3 ∨ 0 < ret := by
  induction t generalizing i t' with
  | nil => cases found
  | cons map rest ih =>
      unfold addLoop at found
      split at found
      · obtain ⟨⟨rest', ret'⟩, inner, eq⟩ := Option.map_eq_some_iff.mp found
        cases eq
        exact ih inner
      · split at found
        · cases found
          exact .inl rfl
        · cases found
          exact .inr (by omega)

variable {granted : Bool}

/-- Without another binding of the client, a new one goes to the end. -/
theorem mappingAdd_alone (alone : add.client ∉ t.map Mapping.client) :
    mappingAdd t add granted = if granted then (t ++ [add], 0) else (t, -1) := by
  have none : addLoop add 0 t = none := by
    refine (addLoop_none 0).mpr fun map mem same => absurd ?_ alone
    rw [← same]
    exact List.mem_map_of_mem mem
  unfold mappingAdd
  rw [none]

theorem added_alone (alone : add.client ∉ t.map Mapping.client) :
    Added t (mappingAdd t add granted).1 add granted (mappingAdd t add granted).2 := by
  have free : source t add.key = none := by
    refine (source_none _).mpr fun mem => alone ?_
    obtain ⟨map, mem, same⟩ := List.mem_map.mp mem
    exact List.mem_map.mpr ⟨map, mem, congrArg Prod.fst same⟩
  rw [mappingAdd_alone alone]
  refine ⟨fun src bound => ?_, fun src bound => ?_, fun _ yes => ?_, fun _ no => ?_⟩
  · rw [free] at bound
    cases bound
  · rw [free] at bound
    cases bound
  · rw [if_pos yes]
    exact ⟨rfl, rfl⟩
  · rw [no]
    exact ⟨rfl, rfl⟩

/-- With another binding of the client, whatever its destination is, the result is wrong. -/
theorem alone_of_added (single : Single t)
    (right : Added t (mappingAdd t add granted).1 add granted (mappingAdd t add granted).2) :
    add.client ∉ t.map Mapping.client := by
  intro mem
  obtain ⟨map, mem, client⟩ := List.mem_map.mp mem
  have only : ∀ other ∈ t, other.client = add.client → other = map := fun other mem' same =>
    List.inj_on_of_nodup_map single.clients mem' mem (same.trans client.symm)
  by_cases dest : map.dest = add.dest
  · have none : addLoop add 0 t = none := by
      refine (addLoop_none 0).mpr fun other mem' same => ?_
      rw [only other mem' same]
      exact dest
    have bound : ∃ src, source t add.key = some src := by
      refine Option.ne_none_iff_exists'.mp fun free => (source_none _).mp free ?_
      refine List.mem_map.mpr ⟨map, mem, ?_⟩
      rw [Mapping.key, client, dest, Mapping.key]
    obtain ⟨src, bound⟩ := bound
    have ret : (mappingAdd t add granted).2 = if granted then 0 else -1 := by
      unfold mappingAdd
      rw [none]
      cases granted <;> rfl
    by_cases dim : src.dim = add.src.dim
    · have positive := (right.known src bound dim).2.2.2
      rw [ret] at positive
      split at positive <;> omega
    · have refusal := (right.conflict src bound dim).2
      rw [ret] at refusal
      split at refusal <;> omega
  · have free : source t add.key = none := by
      refine (source_none _).mpr fun mem' => ?_
      obtain ⟨other, mem', key⟩ := List.mem_map.mp mem'
      have same := only other mem' (congrArg Prod.fst key)
      rw [same] at key
      exact dest (congrArg Prod.snd key)
    cases found : addLoop add 0 t with
    | none => exact dest ((addLoop_none 0).mp found map mem client)
    | some result =>
        have ret : (mappingAdd t add granted).2 = result.2 := by
          unfold mappingAdd
          rw [found]
        have kind := addLoop_result found
        cases granted with
        | true =>
            have zero := (right.appended free rfl).2
            omega
        | false =>
            have refusal := (right.refused free rfl).2
            omega

theorem single_append (single : Single t) (live : add.live)
    (alone : add.client ∉ t.map Mapping.client) : Single (t ++ [add]) := by
  refine ⟨?_, fun map mem => ?_⟩
  · rw [List.map_append, List.map_cons, List.map_nil]
    exact List.nodup_append.mpr ⟨single.clients, by simp, fun c mem c' mem' => by
      rintro rfl
      rw [List.mem_singleton.mp mem'] at mem
      exact alone mem⟩
  · rcases List.mem_append.mp mem with mem | mem
    · exact single.live map mem
    · rw [List.mem_singleton.mp mem]
      exact live

theorem single_without (single : Single t) (src : Option ValSrc) (dst : Option LayDest) (cli : Int) :
    Single ((t.map fun map => map.without src dst cli).filter Mapping.live) := by
  have clients : (t.map fun map => map.without src dst cli).map Mapping.client =
      t.map Mapping.client := by
    rw [List.map_map]
    refine List.map_congr_left fun map _ => ?_
    simp only [Function.comp_apply, Mapping.without]
    split <;> rfl
  refine ⟨?_, fun map mem => (List.mem_filter.mp mem).2⟩
  refine List.Nodup.sublist (List.Sublist.map _ List.filter_sublist) ?_
  rw [clients]
  exact single.clients

/-- One operation of a run. -/
theorem right_step {op : Op} (single : Single t) (live : op.Live) :
    (op.Right t ↔ op.Alone t) ∧ (op.Alone t → Single (op.run t).1) := by
  cases op with
  | add map granted =>
      refine ⟨⟨alone_of_added single, added_alone⟩, fun alone => ?_⟩
      show Single (mappingAdd t map granted).1
      rw [mappingAdd_alone alone]
      cases granted with
      | true => exact single_append single live alone
      | false => exact single
  | del src dst cli =>
      have del : (mappingDel t src dst cli).1 =
          (t.map fun map => map.without src dst cli).filter Mapping.live := by
        simp only [mappingDel_eq single.live, clear_eq]
      refine ⟨⟨fun _ => trivial, fun _ => del⟩, fun _ => ?_⟩
      show Single (mappingDel t src dst cli).1
      rw [del]
      exact single_without single src dst cli

theorem behaves_iff (single : Single t) (ops : List Op) (live : ∀ op ∈ ops, op.Live) :
    Behaves t ops ↔ AllAlone t ops := by
  induction ops generalizing t with
  | nil => exact ⟨fun _ => trivial, fun _ => nodup_keys single⟩
  | cons op ops ih =>
      obtain ⟨right, next⟩ := right_step single (live op (by simp))
      have rest := fun alone => ih (next alone) fun op mem => live op (by simp [mem])
      refine ⟨fun ⟨_, here, more⟩ => ?_, fun ⟨alone, more⟩ => ?_⟩
      · have alone := right.mp here
        exact ⟨alone, (rest alone).mp more⟩
      · exact ⟨nodup_keys single, right.mpr alone, (rest alone).mpr more⟩

/-- The bindings of a run are a map of their keys, if and only if no client ever has two. -/
theorem bindings_of_run (ops : List Op) (live : ∀ op ∈ ops, op.Live) :
    Behaves [] ops ↔ AllAlone [] ops :=
  behaves_iff ⟨by simp, by simp⟩ ops live

/-- Two bindings, one of which is deleted before the next one of its client. -/
theorem bindings_replaced : Behaves [] [.add ⟨⟨1, 3⟩, 7, ⟨1, 1, 1, 0⟩⟩ true,
    .add ⟨⟨1, 3⟩, 8, ⟨1, 1, 1, 0⟩⟩ true, .del none none 7, .add ⟨⟨2, 1⟩, 7, ⟨1, 1, 1, 1⟩⟩ true] :=
  (bindings_of_run _ (by simp [Op.Live, Mapping.live])).mpr (by
    simp [AllAlone, Op.Alone, Op.run, mappingAdd, addLoop]
    decide)

/-- A binding that is added again occurs twice. -/
theorem binding_twice : ¬ ∀ ops, (∀ op ∈ ops, op.Live) → Behaves [] ops := by
  intro all
  have right := all [.add ⟨⟨1, 3⟩, 7, ⟨1, 1, 1, 0⟩⟩ true, .add ⟨⟨1, 3⟩, 7, ⟨1, 1, 1, 0⟩⟩ true]
    (by simp [Op.Live, Mapping.live])
  have twice : ([(7, ⟨1, 1, 1, 0⟩), (7, ⟨1, 1, 1, 0⟩)] : List (UInt16 × LayDest)).Nodup :=
    right.2.2.2.2
  exact absurd twice (by decide)

end Mpt.Plot
