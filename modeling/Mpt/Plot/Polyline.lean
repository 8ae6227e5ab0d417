import Mpt.Plot.ApplyLog
import Mpt.Plot.Split

/-! # Polylines

The parts of a line are set up for the number of points, and the values of each dimension take
points out of them.  Then the points are made by applying the values of each dimension to the
windows of the parts.
-/

namespace Mpt.Plot

/-- How a transformation adds the values of a dimension to points. -/
inductive Routine where
  /-- not at all, as in the base class -/
  | nothing
  /-- `apply` -/
  | linear
  /-- `apply_log` -/
  | log
  deriving DecidableEq

/-- A transformation: the number of its dimensions, the next part of values in one of them, and how
    the values of one are added.  A part passes over one value at least. -/
structure Transform (α : Type u) where
  dimensions : Nat
  part : (dim : Nat) → List α → Linepart
  routine : (dim : Nat) → Routine
  passes : ∀ dim x points, 1 ≤ (part dim (x :: points)).raw.toNat

/-- A value store: without data, with data of another type, or with values. -/
inductive DataStore (α : Type u) where
  | empty
  | other
  | values (points : List α)
  deriving DecidableEq

/-! ## The parts -/

/-- `mpt_linepart_join` -/
def Linepart.join (first post : Linepart) : Option Linepart :=
  if 65535 - first.raw.toNat < post.raw.toNat then none
  else if 65535 - first.usr.toNat < post.usr.toNat then none
  else if first.trim ≠ 0 ∨ post.cut ≠ 0 ∨ first.usr ≠ first.raw then none
  else some { first with raw := first.raw + post.raw, usr := first.usr + post.usr }

/-- `linepart::array::length_user` -/
def lengthUser (parts : List Linepart) : Nat := (parts.map fun part => part.usr.toNat).sum

/-- `linepart::array::length_raw` -/
def lengthRaw (parts : List Linepart) : Nat := (parts.map fun part => part.raw.toNat).sum

/-- The limit for one part in `linepart::array::set`. -/
def setMax : Nat := 65533

/-- The loop of `linepart::array::set`. -/
def fillParts : (len : Nat) → List Linepart → List Linepart
  | _, [] => []
  | len, part :: parts =>
      if len < setMax then
        { part with usr := .ofNat len, raw := .ofNat len } :: fillParts 0 parts
      else
        { part with usr := .ofNat setMax, raw := .ofNat setMax } :: fillParts (len - setMax) parts

/-- `linepart::array::set`; `granted` is the result of the request for memory. -/
def setParts (parts : List Linepart) (len : Int) (granted : Bool) : List Linepart × Bool :=
  if len = 0 then ([], true) else
    -- determine existing points
    let len := if len < 0 then lengthRaw parts else len.toNat
    let num := len / setMax
    let num := if num * setMax < len then num + 1 else num
    if granted then
      (fillParts len (parts.take num ++ List.replicate (num - parts.length) ⟨0, 0, 0, 0⟩), true)
    else
      (parts, false)

/-- The part is joined to the last one or comes behind it. -/
def addPart (parts : List Linepart) (part : Linepart) : List Linepart :=
  match parts.getLast? with
  | none => [part]
  | some last =>
      match last.join part with
      | some both => parts.dropLast ++ [both]
      | none => parts ++ [part]

section
variable {α : Type u} (tr : Transform α)

/-- The parts of `linepart::array::apply` where there were none. -/
def firstParts (dim : Nat) : (fuel : Nat) → List α → List Linepart
  | 0, _ => []
  | _ + 1, [] => []
  | fuel + 1, x :: points =>
      let part := tr.part dim (x :: points)
      part :: firstParts dim fuel ((x :: points).drop part.raw.toNat)

/-- The loop of `linepart::array::apply` over the parts there were, with the new ones so far. -/
def applyLoop (dim : Nat) : (fuel : Nat) → (olds : List Linepart) → (val : List α) →
    (parts : List Linepart) → Option (List Linepart)
  | _, [], _, parts => some parts
  | 0, _ :: _, _, _ => none
  | fuel + 1, old :: olds, val, parts =>
      if old.usr = 0 ∨ val = [] then
        -- no visible points
        applyLoop dim fuel olds (val.drop old.raw.toNat) (addPart parts old)
      else
        let old := if val.length < old.usr.toNat then { old with usr := .ofNat val.length } else old
        let pt := tr.part dim (val.take old.usr.toNat)
        -- minimize leading line
        let pt := if pt.cut < old.cut then { pt with cut := old.cut } else pt
        if pt.raw < old.raw then
          -- partial segment
          applyLoop dim fuel ({ old with raw := old.raw - pt.raw, usr := old.usr - pt.raw, cut := 0 } :: olds)
            (val.drop pt.raw.toNat) (addPart parts pt)
        else
          -- smaller old segment
          let pt := if old.raw < pt.raw then { pt with raw := old.raw } else pt
          -- minimize trailing line
          let pt := if pt.trim < old.trim then { pt with trim := old.trim } else pt
          applyLoop dim fuel olds (val.drop pt.raw.toNat) (addPart parts pt)

/-- `linepart::array::apply` -/
def applyParts (dim : Nat) (val : List α) (parts : List Linepart) : Option (List Linepart × Bool) :=
  if tr.dimensions ≤ dim ∨ val = [] then
    some (parts, false)
  else if parts = [] then
    some (firstParts tr dim val.length val, true)
  else
    (applyLoop tr dim (lengthRaw parts + parts.length) parts val []).map (·, true)

end

/-! ## The points -/

/-- A call of `apply` of the transformation: the values from `src` on in a store, and the points
    from `dest` on. -/
structure ApplyCall where
  dim : Nat
  store : Nat
  part : Linepart
  dest : Nat
  src : Nat
  deriving DecidableEq

/-- The loop of `apply_data` over the parts, for a store with `max` values. -/
def partCalls (i max : Nat) : (dest src : Nat) → List Linepart → List ApplyCall
  | _, _, [] => []
  | dest, src, part :: parts =>
      if max < part.usr.toNat then
        [⟨i, i, { part with usr := .ofNat max }, dest, src⟩]
      else
        ⟨i, i, part, dest, src⟩ :: partCalls i max (dest + part.usr.toNat) (src + part.raw.toNat) parts

section
variable {α : Type u} (tr : Transform α)

/-- The calls of `apply_data` for a dimension. -/
def dataCalls (st : List (DataStore α)) (parts : List Linepart) (i : Nat) : List ApplyCall :=
  match st[i]? with
  | some (.values points) => if points.length = 0 then [] else partCalls i points.length 0 0 parts
  | _ => []

/-- The calls of `apply_data` with parts. -/
def applyData (parts : List Linepart) (st : List (DataStore α)) : List ApplyCall :=
  (List.range tr.dimensions).flatMap (dataCalls st parts)

/-- `maxsize` for values, where the loop stays at the first store. -/
def maxsize (sl : List (DataStore α)) : Int :=
  match sl with
  | [] => -1
  | val :: _ =>
      sl.foldl (fun len _ =>
        match val with
        | .values points => if len < points.length then points.length else len
        | _ => len) (-1)

/-- The loop of `polyline::set` over the stores: the parts, and the dimensions with the stores
    that they take their values from. -/
def visLoop (src : List (DataStore α)) : (left i val : Nat) → (vis : List Linepart) →
    Option (List Linepart × List (Nat × Nat))
  | 0, _, _, vis => some (vis, [])
  | left + 1, i, val, vis =>
      match src[val]? with
      | some (.values points) =>
          (applyParts tr i points vis).bind fun (vis, _) =>
            (visLoop src left (i + 1) (val + 1) vis).map fun (vis, uses) => (vis, (i, val) :: uses)
      -- goes on with the same store
      | _ => visLoop src left (i + 1) val vis

/-- What `polyline::set` does: the parts, the dimensions with their stores, the number of points
    reserved and the calls for these. -/
structure Building where
  vis : List Linepart
  uses : List (Nat × Nat)
  reserved : Nat
  calls : List ApplyCall

/-- `polyline::set`; there is no building where there are no points. -/
def polylineSet (vis : List Linepart) (src : List (DataStore α)) (granted : Bool) :
    Option (Option Building) :=
  if maxsize src = 0 ∨ (setParts vis (maxsize src) granted).2 = false then
    some none
  else
    (visLoop tr src src.length 0 0 (setParts vis (maxsize src) granted).1).map fun (vis, uses) =>
      some ⟨vis, uses, lengthUser vis, if lengthUser vis = 0 then [] else applyData tr vis src⟩

end

/-! ## The calls stay inside -/

variable {α : Type u}

/-- The store has values of the right type. -/
def Usable (src : List (DataStore α)) (i : Nat) : Prop := ∃ points, src[i]? = some (.values points)

/-- The positions that `apply` reads for a part with points. -/
def Linepart.reads (pt : Linepart) : List Int :=
  let first : List Int := if pt.cut ≠ 0 then [0, 1] else []
  let j := if pt.cut ≠ 0 then 1 else 0
  let last : List Int := if pt.trim ≠ 0 then [(pt.usr.toNat : Int) - 2, (pt.usr.toNat : Int) - 1] else []
  let len := if pt.trim ≠ 0 then pt.usr.toNat - 1 else pt.usr.toNat
  if pt.cut ≠ 0 ∧ pt.raw < 2 then []
  else if pt.trim ≠ 0 ∧ pt.raw < 2 then first
  else first ++ last ++ (List.range' j (len - j)).map Nat.cast

/-- The pieces that `apply_log` takes of a part. -/
def Linepart.logPieces : (fuel : Nat) → Linepart → List Linepart
  | 0, _ => []
  | fuel + 1, all => if all.usr = 0 then [] else all.piece :: (all.rest all.piece).logPieces fuel

/-- The positions behind `src` that a call reads. -/
def ApplyCall.reads (routine : Routine) (c : ApplyCall) : List Int :=
  match routine with
  | .nothing => []
  | .linear => if c.part.usr = 0 then [] else c.part.reads
  | .log => (List.range c.part.usr.toNat).map Nat.cast

/-- The call reads values of a part that are in the store of the dimension, and changes points of
    the part that are reserved.  A logarithm that is used is one of the piece. -/
structure ApplyCall.Inside (tr : Transform α) (parts : List Linepart) (src : List (DataStore α))
    (c : ApplyCall) : Prop where
  store : c.store = c.dim
  values : ∃ points, src[c.store]? = some (.values points) ∧
    ∀ r ∈ c.reads (tr.routine c.dim), 0 ≤ r ∧ c.src + r < points.length
  logs : tr.routine c.dim = .log → ∀ piece ∈ c.part.logPieces c.part.usr.toNat,
    ∀ r ∈ piece.reads, 0 ≤ r ∧ r < piece.usr.toNat
  points : c.dest + c.part.usr.toNat ≤ lengthUser parts
  place : ∃ pre part post, parts = pre ++ part :: post ∧ c.dest = lengthUser pre ∧
    c.src = lengthRaw pre ∧ c.part.usr.toNat ≤ part.usr.toNat

/-- A part with an end that is cut, but no line to cut it from. -/
def Linepart.Short (pt : Linepart) : Prop := (pt.cut ≠ 0 ∨ pt.trim ≠ 0) ∧ pt.raw < 2

/-- How many values a part needs, for its points and for the line that is cut. -/
def Linepart.extent (pt : Linepart) : Nat :=
  if pt.cut ≠ 0 then max pt.usr.toNat 2 else pt.usr.toNat

/-- A part with points, from a position on, needs no more than `max` values. -/
def Linepart.Fits (routine : Routine) (max src : Nat) (pt : Linepart) : Prop :=
  pt.usr ≠ 0 →
    match routine with
    | .nothing => True
    | .linear => pt.Short ∨ (pt.trim ≠ 0 → 2 ≤ pt.usr.toNat) ∧ src + pt.extent ≤ max
    | .log => src + pt.usr.toNat ≤ max ∧ ∀ piece ∈ pt.logPieces pt.usr.toNat,
        piece.Short ∨ (piece.cut ≠ 0 ∨ piece.trim ≠ 0 → 2 ≤ piece.usr.toNat)

/-- The parts from a position on fit `max` values, up to one that has more points than there are
    values: it is applied with as many points, and no part behind it. -/
def Fits (routine : Routine) (max : Nat) : (src : Nat) → List Linepart → Prop
  | _, [] => True
  | src, part :: parts =>
      if max < part.usr.toNat then { part with usr := .ofNat max }.Fits routine max src
      else part.Fits routine max src ∧ Fits routine max (src + part.raw.toNat) parts

/-- The parts fit all stores that are applied. -/
def FitsStores (tr : Transform α) (parts : List Linepart) (src : List (DataStore α)) : Prop :=
  ∀ i points, i < tr.dimensions → src[i]? = some (.values points) → points ≠ [] →
    Fits (tr.routine i) points.length 0 parts

/-- The stores that can be used come before all others. -/
def InFront (src : List (DataStore α)) : Prop := ∀ i j, i ≤ j → Usable src j → Usable src i

variable {tr : Transform α} {parts : List Linepart} {src : List (DataStore α)}

theorem usr_pos {pt : Linepart} (some_ : pt.usr ≠ 0) : 0 < pt.usr.toNat :=
  Nat.pos_of_ne_zero fun zero => some_ (UInt16.toNat_inj.mp zero)

/-- What is read for a part with points is inside of `max` values exactly when the part fits. -/
theorem reads_inside {pt : Linepart} (some_ : pt.usr ≠ 0) (at_ max : Nat) :
    (∀ r ∈ pt.reads, 0 ≤ r ∧ at_ + r < max) ↔
      pt.Short ∨ (pt.trim ≠ 0 → 2 ≤ pt.usr.toNat) ∧ at_ + pt.extent ≤ max := by
  have positive := usr_pos some_
  have inner (j len : Nat) : (∀ r ∈ (List.range' j (len - j)).map (Nat.cast : Nat → Int),
      0 ≤ r ∧ (at_ : Int) + r < max) ↔ (j < len → at_ + len ≤ max) := by
    simp only [List.mem_map, List.mem_range'_1]
    constructor
    · intro all less
      have := (all (len - 1 : Nat) ⟨len - 1, by omega, rfl⟩).2
      omega
    · rintro all r ⟨i, inside, rfl⟩
      have := all (by omega)
      omega
  unfold Linepart.reads Linepart.Short Linepart.extent
  by_cases cut : pt.cut = 0 <;> by_cases trim : pt.trim = 0 <;> by_cases short : pt.raw < 2
  all_goals
    simp only [cut, trim, short, ne_eq, not_true_eq_false, not_false_eq_true, and_true, and_false,
      true_and, if_true, if_false, or_true, or_false, true_or, false_or, List.forall_mem_append,
      List.forall_mem_cons, List.not_mem_nil, inner, true_implies, false_implies, implies_true]
  all_goals omega

theorem logPieces_some {fuel : Nat} {pt piece : Linepart} (mem : piece ∈ pt.logPieces fuel) :
    piece.usr ≠ 0 := by
  induction fuel generalizing pt with
  | zero => cases mem
  | succ fuel ih =>
      unfold Linepart.logPieces at mem
      by_cases none : pt.usr = 0
      · rw [if_pos none] at mem
        cases mem
      · rw [if_neg none, List.mem_cons] at mem
        obtain rfl | mem := mem
        · unfold Linepart.piece
          by_cases more : 32 < pt.usr
          · rw [if_pos more]
            exact show (32 : UInt16) ≠ 0 by decide
          · rwa [if_neg more]
        · exact ih mem

/-- What is read for a piece is inside of its logarithms. -/
theorem piece_inside {piece : Linepart} (some_ : piece.usr ≠ 0) :
    (∀ r ∈ piece.reads, 0 ≤ r ∧ r < piece.usr.toNat) ↔
      piece.Short ∨ (piece.cut ≠ 0 ∨ piece.trim ≠ 0 → 2 ≤ piece.usr.toNat) := by
  have inside := reads_inside some_ 0 piece.usr.toNat
  simp only [Nat.cast_zero, zero_add] at inside
  rw [inside]
  refine or_congr_right ?_
  unfold Linepart.extent
  by_cases cut : piece.cut = 0
  · simp [cut]
  · simp only [ne_eq, cut, not_false_eq_true, if_true, true_or, true_implies]
    omega

/-- A call of the routine of a dimension reads what is there exactly when its part fits. -/
theorem call_fits (routine : Routine) (max : Nat) (c : ApplyCall) :
    ((∀ r ∈ c.reads routine, 0 ≤ r ∧ c.src + r < max) ∧
      (routine = .log → ∀ piece ∈ c.part.logPieces c.part.usr.toNat,
        ∀ r ∈ piece.reads, 0 ≤ r ∧ r < piece.usr.toNat)) ↔ c.part.Fits routine max c.src := by
  unfold ApplyCall.reads Linepart.Fits
  by_cases none : c.part.usr = 0
  · cases routine <;> simp [none, Linepart.logPieces]
  · cases routine with
    | nothing => simp
    | linear => simpa [none] using reads_inside none c.src max
    | log =>
        have values : (∀ r ∈ (List.range c.part.usr.toNat).map (Nat.cast : Nat → Int),
            0 ≤ r ∧ (c.src : Int) + r < max) ↔ c.src + c.part.usr.toNat ≤ max := by
          have positive := usr_pos none
          simp only [List.mem_map, List.mem_range]
          constructor
          · intro all
            have := (all (c.part.usr.toNat - 1 : Nat) ⟨_, Nat.sub_lt positive Nat.one_pos, rfl⟩).2
            omega
          · rintro enough r ⟨i, inside, rfl⟩
            omega
        simp only [values, true_implies, ne_eq, none, not_false_eq_true]
        refine and_congr_right fun _ => forall₂_congr fun piece mem => ?_
        exact piece_inside (logPieces_some mem)

theorem partCalls_fits (routine : Routine) (i max dest at_ : Nat) (parts : List Linepart) :
    (∀ c ∈ partCalls i max dest at_ parts, c.part.Fits routine max c.src) ↔
      Fits routine max at_ parts := by
  induction parts generalizing dest at_ with
  | nil => simp [partCalls, Fits]
  | cons part parts ih =>
      unfold partCalls Fits
      by_cases more : max < part.usr.toNat
      · simp only [more, if_true, List.mem_singleton, forall_eq]
      · simp only [more, if_false, List.mem_cons, forall_eq_or_imp, ih]

/-- Where the calls take values and change points. -/
theorem partCalls_place {i max dest at_ : Nat} {c : ApplyCall} (mem : c ∈ partCalls i max dest at_ parts) :
    c.dim = i ∧ c.store = i ∧ ∃ pre part post, parts = pre ++ part :: post ∧
      c.dest = dest + lengthUser pre ∧ c.src = at_ + lengthRaw pre ∧
      c.part.usr.toNat ≤ part.usr.toNat := by
  induction parts generalizing dest at_ with
  | nil => cases mem
  | cons part parts ih =>
      unfold partCalls at mem
      by_cases more : max < part.usr.toNat
      · rw [if_pos more, List.mem_singleton] at mem
        subst mem
        refine ⟨rfl, rfl, [], part, parts, rfl, rfl, rfl, ?_⟩
        simp only [UInt16.toNat_ofNat']
        exact Nat.le_trans (Nat.mod_le _ _) (Nat.le_of_lt more)
      · rw [if_neg more, List.mem_cons] at mem
        obtain rfl | mem := mem
        · exact ⟨rfl, rfl, [], part, parts, rfl, rfl, rfl, Nat.le_refl _⟩
        · obtain ⟨dim, store, pre, part', post, rfl, dest_, src_, le⟩ := ih mem
          refine ⟨dim, store, part :: pre, part', post, rfl, ?_, ?_, le⟩
          · rw [dest_, Nat.add_assoc]
            rfl
          · rw [src_, Nat.add_assoc]
            rfl

theorem lengthUser_split (pre post : List Linepart) (part : Linepart) :
    lengthUser pre + part.usr.toNat ≤ lengthUser (pre ++ part :: post) := by
  unfold lengthUser
  rw [List.map_append, List.sum_append, List.map_cons, List.sum_cons]
  omega

/-- The calls of `apply_data` stay inside exactly when the parts fit the stores. -/
theorem applyData_inside :
    (∀ c ∈ applyData tr parts src, c.Inside tr parts src) ↔ FitsStores tr parts src := by
  unfold applyData FitsStores
  simp only [List.mem_flatMap, List.mem_range]
  constructor
  · intro all i points dim found some_
    have calls : dataCalls src parts i = partCalls i points.length 0 0 parts := by
      unfold dataCalls
      rw [found]
      exact if_neg fun none => some_ (List.eq_nil_of_length_eq_zero none)
    rw [← partCalls_fits (tr.routine i) i points.length 0]
    intro c mem
    have inner := all c ⟨i, dim, by rwa [calls]⟩
    obtain ⟨points', found', reads⟩ := inner.values
    have logs := inner.logs
    rw [(partCalls_place mem).2.1, found] at found'
    cases found'
    rw [(partCalls_place mem).1] at reads logs
    exact (call_fits _ _ c).mp ⟨reads, logs⟩
  · rintro fits c ⟨i, dim, mem⟩
    unfold dataCalls at mem
    cases found : src[i]? with
    | none =>
        rw [found] at mem
        cases mem
    | some store =>
        rw [found] at mem
        cases store with
        | empty => cases mem
        | other => cases mem
        | values points =>
            by_cases none : points.length = 0
            · simp only [none, if_true] at mem
              cases mem
            · simp only [none, if_false] at mem
              obtain ⟨dim_, store, pre, part, post, parts_, dest, src_, le⟩ := partCalls_place mem
              rw [Nat.zero_add] at dest src_
              have some_ : points ≠ [] := fun empty => none (congrArg List.length empty)
              have fit := (partCalls_fits _ _ _ _ _ _).mpr (fits i points dim found some_) c mem
              obtain ⟨reads, logs⟩ := (call_fits _ _ c).mpr fit
              rw [← dim_] at reads logs
              refine ⟨store.trans dim_.symm, ⟨points, by rw [store, found], reads⟩, logs, ?_,
                ⟨pre, part, post, parts_, dest, src_, le⟩⟩
              · rw [parts_, dest]
                exact Nat.le_trans (Nat.add_le_add_left le _) (lengthUser_split pre post part)

/-! ## The loops end -/

theorem applyLoop_some (dim : Nat) {fuel : Nat} {olds : List Linepart} {val : List α}
    (enough : lengthRaw olds + olds.length ≤ fuel) :
    (applyLoop tr dim fuel olds val parts).isSome := by
  induction fuel generalizing olds val parts with
  | zero =>
      cases olds with
      | nil => rfl
      | cons old olds => exact absurd enough (by simp)
  | succ fuel ih =>
      cases olds with
      | nil => rfl
      | cons old olds =>
          have size : lengthRaw (old :: olds) = old.raw.toNat + lengthRaw olds := rfl
          rw [size, List.length_cons] at enough
          unfold applyLoop
          split
          · exact ih (by omega)
          · next visible =>
              obtain ⟨used, some_⟩ := not_or.mp visible
              simp only
              generalize clipped : (if val.length < old.usr.toNat then
                { old with usr := .ofNat val.length } else old) = old'
              have raw : old'.raw = old.raw := by
                rw [← clipped]
                split <;> rfl
              have positive : old'.usr.toNat ≠ 0 := by
                rw [← clipped]
                split
                · next less =>
                    have := UInt16.toNat_lt old.usr
                    have := List.length_pos_iff.mpr some_
                    simp only [UInt16.toNat_ofNat']
                    omega
                · intro zero
                  exact used (UInt16.toNat_inj.mp zero)
              have passes : 1 ≤ (tr.part dim (val.take old'.usr.toNat)).raw.toNat := by
                obtain ⟨x, others, list⟩ := List.exists_cons_of_ne_nil some_
                obtain ⟨n, count⟩ := Nat.exists_eq_succ_of_ne_zero positive
                rw [list, count]
                exact tr.passes dim x _
              generalize cut : (if (tr.part dim (val.take old'.usr.toNat)).cut < old'.cut then
                { tr.part dim (val.take old'.usr.toNat) with cut := old'.cut }
                  else tr.part dim (val.take old'.usr.toNat)) = pt
              have same : pt.raw = (tr.part dim (val.take old'.usr.toNat)).raw := by
                rw [← cut]
                split <;> rfl
              rw [← same] at passes
              split
              · next less =>
                  rw [raw] at less
                  apply ih
                  have less := UInt16.lt_iff_toNat_lt.mp less
                  have left : (old'.raw - pt.raw).toNat = old.raw.toNat - pt.raw.toNat := by
                    rw [raw]
                    exact UInt16.toNat_sub_of_le _ _ (UInt16.le_iff_toNat_le.mpr (Nat.le_of_lt less))
                  simp only [lengthRaw, List.map_cons, List.sum_cons, List.length_cons, left] at enough ⊢
                  omega
              · exact ih (by omega)

theorem applyParts_some (tr : Transform α) (dim : Nat) (val : List α) (parts : List Linepart) :
    (applyParts tr dim val parts).isSome := by
  unfold applyParts
  split
  · rfl
  · split
    · rfl
    · rw [Option.isSome_map]
      exact applyLoop_some dim (Nat.le_refl _)

/-- The loop over the stores stays at the first one that cannot be used. -/
theorem visLoop_stays {left i val : Nat} (unusable : ¬ Usable src val) :
    visLoop tr src left i val parts = some (parts, []) := by
  induction left generalizing i with
  | zero => rfl
  | succ left ih =>
      unfold visLoop
      split
      · next points found => exact absurd ⟨points, found⟩ unusable
      · exact ih

theorem visLoop_uses (tr : Transform α) (src : List (DataStore α)) (left i : Nat)
    (parts : List Linepart) :
    ∃ vis uses, visLoop tr src left i i parts = some (vis, uses) ∧
      ∀ use, use ∈ uses ↔ use.1 = use.2 ∧ i ≤ use.1 ∧ use.1 < i + left ∧
        ∀ k, i ≤ k → k ≤ use.1 → Usable src k := by
  induction left generalizing i parts with
  | zero =>
      refine ⟨parts, [], rfl, ?_⟩
      intro use
      simp
      omega
  | succ left ih =>
      by_cases usable : Usable src i
      · obtain ⟨points, found⟩ := usable
        obtain ⟨⟨vis, done⟩, applied⟩ := Option.isSome_iff_exists.mp
          (applyParts_some tr i points parts)
        obtain ⟨vis', uses, rest, mem⟩ := ih (i + 1) vis
        refine ⟨vis', (i, i) :: uses, ?_, ?_⟩
        · simp only [visLoop, found, applied, Option.bind_some, rest, Option.map_some]
        · rintro ⟨a, b⟩
          rw [List.mem_cons, mem]
          simp only [Prod.mk.injEq]
          constructor
          · rintro (⟨rfl, rfl⟩ | ⟨same, from_, upto, all⟩)
            · refine ⟨rfl, Nat.le_refl _, by omega, ?_⟩
              intro k from_ upto
              rw [Nat.le_antisymm upto from_]
              exact ⟨points, found⟩
            · refine ⟨same, by omega, by omega, ?_⟩
              intro k from_ upto
              by_cases first : k = i
              · rw [first]
                exact ⟨points, found⟩
              · exact all k (by omega) upto
          · rintro ⟨same, from_, upto, all⟩
            by_cases first : a = i
            · exact .inl ⟨first, by omega⟩
            · exact .inr ⟨same, by omega, by omega, fun k less upto => all k (by omega) upto⟩
      · refine ⟨parts, [], visLoop_stays usable, ?_⟩
        rintro ⟨a, b⟩
        constructor
        · intro mem
          cases mem
        · rintro ⟨_, from_, _, all⟩
          exact absurd (all i (Nat.le_refl i) from_) usable

/-! ## The whole -/

/-- The parts that `polyline::set` comes to. -/
def visible (tr : Transform α) (vis : List Linepart) (src : List (DataStore α)) (granted : Bool) :
    Option (List Linepart) :=
  (visLoop tr src src.length 0 0 (setParts vis (maxsize src) granted).1).map Prod.fst

/-- Each store that can be used is taken for its dimension and for no other, and the calls stay
    inside. -/
structure Building.Sound (tr : Transform α) (src : List (DataStore α)) (b : Building) : Prop where
  same : ∀ use ∈ b.uses, use.1 = use.2
  all : ∀ i, Usable src i → (i, i) ∈ b.uses
  reserved : b.reserved = lengthUser b.vis
  calls : ∀ c ∈ b.calls, c.Inside tr b.vis src

/-- What is built is sound. -/
def Builds (tr : Transform α) (src : List (DataStore α)) : Option (Option Building) → Prop
  | none => False
  | some none => True
  | some (some b) => b.Sound tr src

/-- The transformation of the base class, with a number of dimensions. -/
def plainTransform (dimensions : Nat) : Transform Int where
  dimensions := dimensions
  part _ points := linear (fun _ _ _ => 0) none points
  routine _ := .nothing
  passes _ _ _ := (linear_stretch none (List.cons_ne_nil _ _)).some_

end Mpt.Plot
