import Mpt.Plot.Polyline
import Mathlib.Data.List.Chain

/-! # Parts of several dimensions

Each dimension takes the points out of the windows that its values do not have in range.  A part
that is in the window of an old one only to some extent is split, and what comes behind another
part is joined to it where nothing is cut.
-/

namespace Mpt.Plot

/-- The points in the inner parts of the windows. -/
def Inners : List Linepart → Nat → Prop
  | [], _ => False
  | part :: parts, i =>
      InnerPoint i (0, part) ∨ part.raw.toNat ≤ i ∧ Inners parts (i - part.raw.toNat)

theorem inners_append (front parts : List Linepart) (i : Nat) :
    Inners (front ++ parts) i ↔
      Inners front i ∨ lengthRaw front ≤ i ∧ Inners parts (i - lengthRaw front) := by
  induction front generalizing i with
  | nil => simp [Inners, lengthRaw]
  | cons part front ih =>
      have total : lengthRaw (part :: front) = part.raw.toNat + lengthRaw front := by
        simp [lengthRaw]
      simp only [List.cons_append, Inners, ih, total, Nat.sub_sub]
      constructor
      · rintro (here | ⟨le, there | ⟨le', behind⟩⟩)
        · exact .inl (.inl here)
        · exact .inl (.inr ⟨le, there⟩)
        · exact .inr ⟨by omega, behind⟩
      · rintro ((here | ⟨le, there⟩) | ⟨le, behind⟩)
        · exact .inl here
        · exact .inr ⟨le, .inl there⟩
        · exact .inr ⟨by omega, .inr ⟨by omega, behind⟩⟩

theorem lengthRaw_append (front parts : List Linepart) :
    lengthRaw (front ++ parts) = lengthRaw front + lengthRaw parts := by
  simp [lengthRaw]

/-! ## Joined parts -/

/-- A joined part has the points of both, the cut of the first and the trim of the last. -/
def JoinKeeps (first post both : Linepart) : Prop :=
  (∀ i, InnerPoint i (0, both) ↔ Inners [first, post] i) ∧
    both.cut = first.cut ∧ both.trim = post.trim

theorem join_cases {first post both : Linepart} (joined : first.join post = some both) :
    both.raw.toNat = first.raw.toNat + post.raw.toNat ∧
      both.usr.toNat = first.usr.toNat + post.usr.toNat ∧ both.cut = first.cut ∧ both.trim = 0 ∧
      first.usr = first.raw ∧ first.trim = 0 ∧ post.cut = 0 := by
  unfold Linepart.join at joined
  split at joined
  · cases joined
  split at joined
  · cases joined
  split at joined
  · cases joined
  next raw usr open_ =>
    cases joined
    simp only [ne_eq, not_or, not_not] at open_
    obtain ⟨trim, cut, same⟩ := open_
    have := UInt16.toNat_lt first.raw
    have := UInt16.toNat_lt first.usr
    refine ⟨?_, ?_, rfl, trim, same, trim, cut⟩
    · simp only [UInt16.toNat_add]
      omega
    · simp only [UInt16.toNat_add]
      omega

theorem join_inner {first post both : Linepart} (joined : first.join post = some both)
    (kept : post.usr = 0 ∨ post.trim = 0 ∧ (first.usr ≠ 0 ∨ first.cut = 0)) (i : Nat) :
    InnerPoint i (0, both) ↔ Inners [first, post] i := by
  obtain ⟨raw, usr, cut, trim, same, trim', cut'⟩ := join_cases joined
  have some_ : first.usr ≠ 0 → 0 < first.usr.toNat := fun ne => by
    have : first.usr.toNat ≠ 0 := fun zero => ne (UInt16.toNat_inj.mp zero)
    omega
  have none_ : post.usr = 0 → post.usr.toNat = 0 := fun zero => by rw [zero]; rfl
  have raw_eq : first.raw.toNat = first.usr.toNat := by rw [same]
  simp only [Inners, InnerPoint, cut, trim, trim', cut', usr, raw_eq, and_false, or_false, ne_eq,
    not_true_eq_false, false_implies, and_true, Nat.zero_add, Nat.zero_le, true_and]
  rcases kept with none | ⟨untrimmed, some | uncut⟩
  · have := none_ none
    constructor
    · rintro ⟨less, head⟩
      exact .inl ⟨by omega, head⟩
    · rintro (⟨less, head⟩ | ⟨_, less, _⟩)
      · exact ⟨by omega, head⟩
      · omega
  · have := some_ some
    constructor
    · rintro ⟨less, head⟩
      by_cases front : i < first.usr.toNat
      · exact .inl ⟨front, head⟩
      · exact .inr ⟨by omega, by omega, fun ne => absurd untrimmed ne⟩
    · rintro (⟨less, head⟩ | ⟨le, less, _⟩)
      · exact ⟨by omega, head⟩
      · exact ⟨by omega, fun _ => by omega⟩
  · constructor
    · rintro ⟨less, _⟩
      by_cases front : i < first.usr.toNat
      · exact .inl ⟨front, fun ne => absurd uncut ne⟩
      · exact .inr ⟨by omega, by omega, fun ne => absurd untrimmed ne⟩
    · rintro (⟨less, head⟩ | ⟨le, less, _⟩)
      · exact ⟨by omega, head⟩
      · exact ⟨by omega, fun ne => absurd uncut ne⟩

theorem joinKeeps_iff {first post both : Linepart} (joined : first.join post = some both) :
    JoinKeeps first post both ↔
      post.trim = 0 ∧ (post.usr = 0 ∨ first.usr ≠ 0 ∨ first.cut = 0) := by
  obtain ⟨raw, usr, cut, trim, same, trim', cut'⟩ := join_cases joined
  constructor
  · rintro ⟨points, _, last⟩
    rw [trim] at last
    refine ⟨last.symm, ?_⟩
    by_contra apart
    simp only [not_or, not_not] at apart
    obtain ⟨some, none, marked⟩ := apart
    have size : post.usr.toNat ≠ 0 := fun zero => some (UInt16.toNat_inj.mp zero)
    have raw_eq : first.raw.toNat = 0 := by
      rw [← same, none]
      rfl
    have first_ : InnerPoint 0 (0, both) := by
      refine (points 0).mpr (.inr ⟨by omega, .inl ⟨Nat.zero_le _, ?_, ?_, ?_⟩⟩)
      · simp only
        omega
      · intro ne
        exact absurd cut' ne
      · intro ne
        exact absurd last.symm ne
    exact first_.2.2.1 (by rw [cut]; exact marked) rfl
  · rintro ⟨untrimmed, kept⟩
    exact ⟨join_inner joined (kept.imp_right fun kept => ⟨untrimmed, kept⟩), cut,
      trim.trans untrimmed.symm⟩

/-- Joining the part to the last one loses nothing. -/
def Adds (parts : List Linepart) (part : Linepart) : Prop :=
  ∀ last both, parts.getLast? = some last → last.join part = some both →
    part.usr = 0 ∨ part.trim = 0 ∧ (last.usr ≠ 0 ∨ last.cut = 0)

theorem lengthRaw_addPart (parts : List Linepart) (part : Linepart) :
    lengthRaw (addPart parts part) = lengthRaw parts + part.raw.toNat := by
  rcases List.eq_nil_or_concat parts with rfl | ⟨init, last, rfl⟩
  · simp [addPart, lengthRaw]
  · unfold addPart
    simp only [List.concat_eq_append, List.getLast?_append, List.getLast?_singleton,
      Option.some_or, List.dropLast_concat]
    cases joined : last.join part with
    | none => simp [lengthRaw, Nat.add_assoc]
    | some both =>
        simp only [lengthRaw_append]
        simp [lengthRaw, (join_cases joined).1, Nat.add_assoc]

theorem inners_addPart {parts : List Linepart} {part : Linepart} (adds : Adds parts part) (i : Nat) :
    Inners (addPart parts part) i ↔
      Inners parts i ∨ lengthRaw parts ≤ i ∧ InnerPoint (i - lengthRaw parts) (0, part) := by
  rcases List.eq_nil_or_concat parts with rfl | ⟨init, last, rfl⟩
  · simp [addPart, Inners, lengthRaw]
  · unfold addPart
    simp only [List.concat_eq_append, List.getLast?_append, List.getLast?_singleton,
      Option.some_or, List.dropLast_concat]
    cases joined : last.join part with
    | none =>
        simp only [inners_append (init ++ [last])]
        simp [Inners]
    | some both =>
        have keeps := join_inner joined (adds last both (by simp) joined)
        simp only [inners_append init, lengthRaw_append]
        have single : Inners [both] (i - lengthRaw init) ↔ InnerPoint (i - lengthRaw init) (0, both) := by
          simp [Inners]
        rw [single, keeps]
        simp only [Inners, and_false, or_false]
        simp only [lengthRaw, List.map_cons, List.map_nil, List.sum_cons, List.sum_nil, Nat.add_zero]
        constructor
        · rintro (front | ⟨le, here | ⟨le', there⟩⟩)
          · exact .inl (.inl front)
          · exact .inl (.inr ⟨le, here⟩)
          · refine .inr ⟨by omega, ?_⟩
            rwa [← Nat.sub_sub]
        · rintro ((front | ⟨le, here⟩) | ⟨le, there⟩)
          · exact .inl front
          · exact .inr ⟨le, .inl here⟩
          · refine .inr ⟨by omega, .inr ⟨by omega, ?_⟩⟩
            rwa [Nat.sub_sub]

/-- All parts are added without a loss. -/
def AddsAll : (parts pieces : List Linepart) → Prop
  | _, [] => True
  | parts, piece :: pieces => Adds parts piece ∧ AddsAll (addPart parts piece) pieces

theorem lengthRaw_adds (pieces parts : List Linepart) :
    lengthRaw (pieces.foldl addPart parts) = lengthRaw parts + lengthRaw pieces := by
  induction pieces generalizing parts with
  | nil => simp [lengthRaw]
  | cons piece pieces ih =>
      rw [List.foldl_cons, ih, lengthRaw_addPart, Nat.add_assoc]
      simp [lengthRaw]

theorem inners_adds {pieces parts : List Linepart} (adds : AddsAll parts pieces) (i : Nat) :
    Inners (pieces.foldl addPart parts) i ↔
      Inners parts i ∨ lengthRaw parts ≤ i ∧ Inners pieces (i - lengthRaw parts) := by
  induction pieces generalizing parts with
  | nil => simp [Inners]
  | cons piece pieces ih =>
      obtain ⟨first, others⟩ := adds
      rw [List.foldl_cons, ih others, inners_addPart first, lengthRaw_addPart]
      simp only [Inners, Nat.sub_sub]
      constructor
      · rintro ((front | here) | ⟨le, there⟩)
        · exact .inl front
        · exact .inr ⟨here.1, .inl here.2⟩
        · exact .inr ⟨by omega, .inr ⟨by omega, there⟩⟩
      · rintro (front | ⟨le, here | ⟨le', there⟩⟩)
        · exact .inl (.inl front)
        · exact .inl (.inr ⟨le, here⟩)
        · exact .inr ⟨by omega, there⟩

/-! ## The pieces of an old part -/

section
variable {α : Type u} {tr : Transform α} {dim : Nat} {ins : α → Bool} {dom : List α → Prop}

/-- The points of a window are visible but for the ones at its ends that are marked. -/
structure Marked (ins : α → Bool) (points : List α) (part : Linepart) : Prop where
  visible : ∀ i, i < part.usr.toNat →
    Visible ins points i ∨ i = 0 ∧ part.cut ≠ 0 ∨ i + 1 = part.usr.toNat ∧ part.trim ≠ 0
  whole : part.trim = 0 → part.usr.toNat = 0 ∨ part.usr.toNat = points.length
  begins : part.usr.toNat ≠ 0 → Visible ins points 0 ∨ part.cut ≠ 0 ∧ 2 ≤ part.usr.toNat
  blank : part.usr.toNat = 0 → part.cut = 0 ∧ part.trim = 0

/-- The parts of a transformation tell what they pass over, for those points that are in `dom`. -/
structure Tells (tr : Transform α) (dim : Nat) (ins : α → Bool) (dom : List α → Prop) : Prop where
  rest : ∀ points n, dom points → dom (points.drop n)
  stretch : ∀ points, points ≠ [] → points.length ≤ partMax →
    Stretch (Visible ins points) points.length (tr.part dim points)
  marked : ∀ points, dom points → points ≠ [] → points.length ≤ partMax →
    Marked ins points (tr.part dim points)

/-- The inner points are the ones in range among those that are passed over. -/
theorem Tells.inner (tells : Tells tr dim ins dom) {points : List α} (known : dom points)
    (some_ : points ≠ []) (small : points.length ≤ partMax) (i : Nat) :
    InnerPoint i (0, tr.part dim points) ↔
      i < (tr.part dim points).raw.toNat ∧ Visible ins points i := by
  have part := tells.stretch points some_ small
  have marked := tells.marked points known some_ small
  constructor
  · rintro ⟨_, inside, head, last⟩
    simp only [Nat.zero_add] at inside head last
    have seen : Visible ins points i := by
      rcases marked.visible i inside with seen | ⟨zero, cut⟩ | ⟨ends, trim⟩
      · exact seen
      · exact absurd zero (head cut)
      · exact absurd ends (last trim)
    refine ⟨?_, seen⟩
    by_contra behind
    exact part.shared i (Nat.le_of_not_lt behind) inside seen
  · rintro ⟨less, seen⟩
    have within := part.window i less seen
    refine ⟨Nat.zero_le i, by rw [Nat.zero_add]; exact within, ?_, ?_⟩
    · rintro cut rfl
      exact part.cut cut seen
    · intro trim ends
      simp only [Nat.zero_add] at ends
      apply part.trim trim
      have at_end : (tr.part dim points).usr.toNat - 1 = i := Nat.sub_eq_of_eq_add ends.symm
      rwa [at_end]

/-- The next point is not in range. -/
theorem Tells.next (tells : Tells tr dim ins dom) {points : List α} (some_ : points ≠ [])
    (small : points.length ≤ partMax) (less : (tr.part dim points).raw.toNat < points.length) :
    ¬ Visible ins points (tr.part dim points).raw.toNat := by
  rcases (tells.stretch points some_ small).rising with all | ⟨hidden, _⟩
  · exact absurd all (Nat.ne_of_lt less)
  · exact hidden

/-- The window of a part, limited by the number of values. -/
def limited (old : Linepart) (len : Nat) : Linepart :=
  if len < old.usr.toNat then { old with usr := .ofNat len } else old

/-- The part of the transformation with the cut of the old one. -/
def cutPart (tr : Transform α) (dim : Nat) (old : Linepart) (val : List α) : Linepart :=
  let pt := tr.part dim (val.take old.usr.toNat)
  if pt.cut < old.cut then { pt with cut := old.cut } else pt

/-- The part that is the rest of the old one, with the trim of that. -/
def lastPart (old pt : Linepart) : Linepart :=
  let pt := if old.raw < pt.raw then { pt with raw := old.raw } else pt
  if pt.trim < old.trim then { pt with trim := old.trim } else pt

/-- What is left of the old part. -/
def leftPart (old pt : Linepart) : Linepart :=
  { old with raw := old.raw - pt.raw, usr := old.usr - pt.raw, cut := 0 }

theorem limited_usr (old : Linepart) (len : Nat) :
    (limited old len).usr.toNat = min old.usr.toNat len ∧ (limited old len).raw = old.raw ∧
      (limited old len).cut = old.cut ∧ (limited old len).trim = old.trim := by
  unfold limited
  split
  · next less =>
      have := UInt16.toNat_lt old.usr
      refine ⟨?_, rfl, rfl, rfl⟩
      simp only [UInt16.toNat_ofNat']
      omega
  · next le => exact ⟨by omega, rfl, rfl, rfl⟩

theorem cutPart_same (old : Linepart) (val : List α) :
    (cutPart tr dim old val).raw = (tr.part dim (val.take old.usr.toNat)).raw ∧
      (cutPart tr dim old val).usr = (tr.part dim (val.take old.usr.toNat)).usr ∧
      (cutPart tr dim old val).trim = (tr.part dim (val.take old.usr.toNat)).trim := by
  unfold cutPart
  simp only
  split <;> exact ⟨rfl, rfl, rfl⟩

theorem cutPart_raw (old : Linepart) (val : List α) :
    (cutPart tr dim old val).raw = (tr.part dim (val.take old.usr.toNat)).raw :=
  (cutPart_same old val).1

theorem cutPart_pos {old : Linepart} {val : List α} (some_ : old.usr ≠ 0) (values : val ≠ []) :
    1 ≤ (cutPart tr dim (limited old val.length) val).raw.toNat := by
  rw [cutPart_raw]
  have size : old.usr.toNat ≠ 0 := fun zero => some_ (UInt16.toNat_inj.mp zero)
  have window := (limited_usr old val.length).1
  cases val with
  | nil => exact absurd rfl values
  | cons x val =>
      obtain ⟨n, eq⟩ : ∃ n, (limited old (x :: val).length).usr.toNat = n + 1 :=
        Nat.exists_eq_succ_of_ne_zero (by rw [window, List.length_cons]; omega)
      rw [eq, List.take_succ_cons]
      exact tr.passes dim x _

/-- The pieces of an old part. -/
def pieces (tr : Transform α) (dim : Nat) (old : Linepart) (val : List α) : List Linepart :=
  if _some : old.usr = 0 ∨ val = [] then
    [old]
  else
    let old' := limited old val.length
    let pt := cutPart tr dim old' val
    if _partial : pt.raw < old.raw then
      pt :: pieces tr dim (leftPart old' pt) (val.drop pt.raw.toNat)
    else
      [lastPart old' pt]
termination_by old.raw.toNat
decreasing_by
  have pos : 1 ≤ pt.raw.toNat := cutPart_pos (not_or.mp _some).1 (not_or.mp _some).2
  have less := UInt16.lt_iff_toNat_lt.mp _partial
  have size := UInt16.toNat_sub_of_le old.raw pt.raw (UInt16.le_of_lt _partial)
  change ((limited old val.length).raw - pt.raw).toNat < old.raw.toNat
  rw [(limited_usr old val.length).2.1, size]
  omega

/-- The pieces of all parts. -/
def allPieces (tr : Transform α) (dim : Nat) : List Linepart → List α → List Linepart
  | [], _ => []
  | old :: olds, val => pieces tr dim old val ++ allPieces tr dim olds (val.drop old.raw.toNat)

theorem applyLoop_cons (fuel : Nat) (old : Linepart) (olds : List Linepart) (val : List α)
    (parts : List Linepart) :
    applyLoop tr dim (fuel + 1) (old :: olds) val parts =
      if old.usr = 0 ∨ val = [] then
        applyLoop tr dim fuel olds (val.drop old.raw.toNat) (addPart parts old)
      else if (cutPart tr dim (limited old val.length) val).raw < (limited old val.length).raw then
        applyLoop tr dim fuel
          (leftPart (limited old val.length) (cutPart tr dim (limited old val.length) val) :: olds)
          (val.drop (cutPart tr dim (limited old val.length) val).raw.toNat)
          (addPart parts (cutPart tr dim (limited old val.length) val))
      else
        applyLoop tr dim fuel olds
          (val.drop (lastPart (limited old val.length)
            (cutPart tr dim (limited old val.length) val)).raw.toNat)
          (addPart parts (lastPart (limited old val.length)
            (cutPart tr dim (limited old val.length) val))) := rfl

theorem lastPart_raw {old pt : Linepart} (whole : ¬ pt.raw < old.raw) :
    (lastPart old pt).raw = old.raw := by
  have le := UInt16.not_lt.mp whole
  unfold lastPart
  simp only
  by_cases less : old.raw < pt.raw
  · rw [if_pos less]
    split <;> rfl
  · rw [if_neg less]
    have same : pt.raw = old.raw := UInt16.le_antisymm (UInt16.not_lt.mp less) le
    split
    · exact same
    · exact same

/-- The loop joins the pieces one after the other. -/
theorem applyLoop_eq {fuel : Nat} {olds : List Linepart} {val : List α} {parts : List Linepart}
    (enough : lengthRaw olds + olds.length ≤ fuel) :
    applyLoop tr dim fuel olds val parts =
      some ((allPieces tr dim olds val).foldl addPart parts) := by
  induction fuel generalizing olds val parts with
  | zero =>
      cases olds with
      | nil => rfl
      | cons old olds => exact absurd enough (by simp)
  | succ fuel ih =>
      cases olds with
      | nil => rfl
      | cons old olds =>
          have total : lengthRaw (old :: olds) = old.raw.toNat + lengthRaw olds := by
            simp [lengthRaw]
          rw [total, List.length_cons] at enough
          rw [applyLoop_cons, allPieces, pieces]
          by_cases none : old.usr = 0 ∨ val = []
          · rw [if_pos none, dif_pos none, ih (by omega)]
            rfl
          rw [if_neg none, dif_neg none]
          have pos : 1 ≤ (cutPart tr dim (limited old val.length) val).raw.toNat :=
            cutPart_pos (not_or.mp none).1 (not_or.mp none).2
          rw [(limited_usr old val.length).2.1]
          simp only
          generalize cutPart tr dim (limited old val.length) val = pt at *
          by_cases less : pt.raw < old.raw
          · have size := UInt16.toNat_sub_of_le old.raw pt.raw (UInt16.le_of_lt less)
            have less' := UInt16.lt_iff_toNat_lt.mp less
            have left : (leftPart (limited old val.length) pt).raw.toNat =
                old.raw.toNat - pt.raw.toNat := by
              change ((limited old val.length).raw - pt.raw).toNat = _
              rw [(limited_usr old val.length).2.1, size]
            rw [if_pos less, dif_pos less, ih]
            · rw [allPieces, left, List.drop_drop, Nat.add_sub_cancel' (Nat.le_of_lt less')]
              rfl
            · have shorter : lengthRaw (leftPart (limited old val.length) pt :: olds) =
                  (leftPart (limited old val.length) pt).raw.toNat + lengthRaw olds := by
                simp [lengthRaw]
              rw [shorter, left, List.length_cons]
              omega
          · have same : (lastPart (limited old val.length) pt).raw = (limited old val.length).raw :=
              lastPart_raw (by rw [(limited_usr old val.length).2.1]; exact less)
            rw [(limited_usr old val.length).2.1] at same
            rw [if_neg less, dif_neg less, same, ih (by omega)]
            rfl

/-! ## The inner points of the pieces -/

/-- The inner points of an old part, where the trim of a window that ends before the part does
    not count. -/
def Wanted (old : Linepart) (i : Nat) : Prop :=
  i < old.usr.toNat ∧ (old.cut ≠ 0 → i ≠ 0) ∧
    (old.trim ≠ 0 → old.raw.toNat ≤ old.usr.toNat → i + 1 ≠ old.usr.toNat)

/-- A point that is in range, and not the first one of a part that is cut. -/
def Shown (ins : α → Bool) (old : Linepart) (val : List α) (i : Nat) : Prop :=
  Visible ins val i ∧ (old.cut ≠ 0 → i ≠ 0)

/-- An old part for which the trim stays where it is, with the values left. -/
structure Splits (ins : α → Bool) (old : Linepart) (val : List α) : Prop where
  usr_le : old.usr.toNat ≤ old.raw.toNat + 1
  none : val = [] → ∀ i, ¬ InnerPoint i (0, old)
  trim : val ≠ [] → old.trim ≠ 0 → val.length < old.usr.toNat → val.length = old.raw.toNat →
    ¬ Shown ins old val (val.length - 1)

theorem toNat_ne {x : UInt16} : x ≠ 0 ↔ x.toNat ≠ 0 :=
  not_congr ⟨fun zero => by rw [zero]; rfl, fun zero => UInt16.toNat_inj.mp zero⟩

theorem visible_drop {val : List α} {n i : Nat} :
    Visible ins (val.drop n) i ↔ Visible ins val (n + i) := by
  unfold Visible
  rw [List.getElem?_drop]

theorem visible_take {val : List α} {n i : Nat} :
    Visible ins (val.take n) i ↔ i < n ∧ Visible ins val i := by
  unfold Visible
  by_cases less : i < n
  · rw [List.getElem?_take_of_lt less]
    exact ⟨fun seen => ⟨less, seen⟩, fun seen => seen.2⟩
  · rw [List.getElem?_eq_none (by rw [List.length_take]; omega)]
    constructor
    · rintro ⟨x, none, _⟩
      cases none
    · exact fun seen => absurd seen.1 less

theorem visible_lt {val : List α} {i : Nat} (seen : Visible ins val i) : i < val.length := by
  obtain ⟨x, found, _⟩ := seen
  exact (List.getElem?_eq_some_iff.mp found).1

theorem take_small (old : Linepart) (val : List α) :
    (val.take old.usr.toNat).length ≤ partMax := by
  have := UInt16.toNat_lt old.usr
  rw [List.length_take]
  unfold partMax
  omega

/-- The inner points with the cut of the old part. -/
theorem cutPart_inner (tells : Tells tr dim ins dom) {old : Linepart} {val : List α}
    (known : dom (val.take old.usr.toNat)) (view : val.take old.usr.toNat ≠ []) (i : Nat) :
    InnerPoint i (0, cutPart tr dim old val) ↔
      i < (cutPart tr dim old val).raw.toNat ∧ Visible ins (val.take old.usr.toNat) i ∧
        (old.cut ≠ 0 → i ≠ 0) := by
  have inner := tells.inner known view (take_small old val) i
  rw [cutPart_raw, ← and_assoc, ← inner]
  unfold cutPart
  simp only
  by_cases less : (tr.part dim (val.take old.usr.toNat)).cut < old.cut
  · rw [if_pos less]
    have marked : old.cut ≠ 0 := by
      have := UInt16.lt_iff_toNat_lt.mp less
      rw [toNat_ne]
      omega
    constructor
    · rintro ⟨low, inside, head, last⟩
      exact ⟨⟨low, inside, fun _ => head marked, last⟩, head⟩
    · rintro ⟨⟨low, inside, _, last⟩, head⟩
      exact ⟨low, inside, head, last⟩
  · rw [if_neg less]
    have both : old.cut ≠ 0 → (tr.part dim (val.take old.usr.toNat)).cut ≠ 0 := by
      have := UInt16.not_lt.mp less
      rw [UInt16.le_iff_toNat_le] at this
      rw [toNat_ne, toNat_ne]
      omega
    constructor
    · intro inner
      exact ⟨inner, fun marked => inner.2.2.1 (both marked)⟩
    · exact And.left

theorem lastPart_inner {old pt : Linepart} (i : Nat) :
    InnerPoint i (0, lastPart old pt) ↔
      InnerPoint i (0, pt) ∧ (old.trim ≠ 0 → i + 1 ≠ pt.usr.toNat) := by
  have trim : (lastPart old pt).trim ≠ 0 ↔ pt.trim ≠ 0 ∨ old.trim ≠ 0 := by
    unfold lastPart
    simp only
    have same : (if old.raw < pt.raw then { pt with raw := old.raw } else pt).trim = pt.trim := by
      split <;> rfl
    rw [same]
    by_cases less : pt.trim < old.trim
    · have := UInt16.lt_iff_toNat_lt.mp less
      rw [if_pos less]
      simp only [toNat_ne]
      omega
    · have := UInt16.not_lt.mp less
      rw [UInt16.le_iff_toNat_le] at this
      rw [if_neg less]
      simp only [same, toNat_ne]
      omega
  have usr : (lastPart old pt).usr = pt.usr ∧ (lastPart old pt).cut = pt.cut := by
    unfold lastPart
    simp only
    split <;> split <;> exact ⟨rfl, rfl⟩
  unfold InnerPoint
  simp only [usr.1, usr.2, Nat.zero_add]
  rw [trim]
  constructor
  · rintro ⟨low, inside, head, last⟩
    exact ⟨⟨low, inside, head, fun marked => last (.inl marked)⟩, fun marked => last (.inr marked)⟩
  · rintro ⟨⟨low, inside, head, last⟩, last'⟩
    exact ⟨low, inside, head, fun marked => marked.elim last last'⟩

theorem lengthRaw_pieces (old : Linepart) (val : List α) :
    lengthRaw (pieces tr dim old val) = old.raw.toNat := by
  fun_induction pieces tr dim old val with
  | case1 old val none => simp [lengthRaw]
  | case2 old val none old' pt less ih =>
      have size := UInt16.toNat_sub_of_le old.raw pt.raw (UInt16.le_of_lt less)
      have less' := UInt16.lt_iff_toNat_lt.mp less
      have left : (leftPart old' pt).raw.toNat = old.raw.toNat - pt.raw.toNat := by
        change ((limited old val.length).raw - pt.raw).toNat = _
        rw [(limited_usr old val.length).2.1, size]
      have total : lengthRaw (pt :: pieces tr dim (leftPart old' pt) (val.drop pt.raw.toNat)) =
          pt.raw.toNat + lengthRaw (pieces tr dim (leftPart old' pt) (val.drop pt.raw.toNat)) := by
        simp [lengthRaw]
      rw [total, ih, left]
      omega
  | case3 old val none old' pt less =>
      have same : (lastPart old' pt).raw = old'.raw :=
        lastPart_raw (by rw [(limited_usr old val.length).2.1]; exact less)
      have total : lengthRaw [lastPart old' pt] = (lastPart old' pt).raw.toNat := by
        simp [lengthRaw]
      rw [total, same, (limited_usr old val.length).2.1]

/-- The part that is tried has points that there are values for. -/
theorem view_some {old : Linepart} {val : List α} (some_ : ¬ (old.usr = 0 ∨ val = [])) :
    val.take (limited old val.length).usr.toNat ≠ [] ∧
      (val.take (limited old val.length).usr.toNat).length = min old.usr.toNat val.length := by
  obtain ⟨points, values⟩ := not_or.mp some_
  have size := toNat_ne.mp points
  have count := List.length_pos_iff.mpr values
  have window := (limited_usr old val.length).1
  have length : (val.take (limited old val.length).usr.toNat).length =
      min old.usr.toNat val.length := by
    rw [List.length_take, window]
    omega
  refine ⟨?_, length⟩
  intro empty
  rw [empty, List.length_nil] at length
  omega

/-- The counts of what is left of a part. -/
theorem left_counts (tells : Tells tr dim ins dom) {old : Linepart} {val : List α}
    (some_ : ¬ (old.usr = 0 ∨ val = [])) {pt : Linepart}
    (eq : cutPart tr dim (limited old val.length) val = pt) (less : pt.raw < old.raw) :
    pt.raw.toNat ≤ min old.usr.toNat val.length ∧
      (leftPart (limited old val.length) pt).usr.toNat =
        min old.usr.toNat val.length - pt.raw.toNat ∧
      (leftPart (limited old val.length) pt).raw.toNat = old.raw.toNat - pt.raw.toNat := by
  obtain ⟨window, raw, _, trim⟩ := limited_usr old val.length
  have le : pt.raw.toNat ≤ min old.usr.toNat val.length := by
    obtain ⟨view, length⟩ := view_some some_
    rw [← eq, cutPart_raw, ← length]
    exact (tells.stretch _ view (take_small _ val)).raw_le
  refine ⟨le, ?_, ?_⟩
  · change ((limited old val.length).usr - pt.raw).toNat = _
    rw [UInt16.toNat_sub_of_le _ _ (by rw [UInt16.le_iff_toNat_le, window]; exact le), window]
  · change ((limited old val.length).raw - pt.raw).toNat = _
    rw [raw, UInt16.toNat_sub_of_le _ _ (UInt16.le_of_lt less)]

/-- What is left of a part is split in the same way. -/
theorem splits_left (tells : Tells tr dim ins dom) {old : Linepart} {val : List α}
    (splits : Splits ins old val) (some_ : ¬ (old.usr = 0 ∨ val = [])) {pt : Linepart}
    (eq : cutPart tr dim (limited old val.length) val = pt) (less : pt.raw < old.raw) :
    Splits ins (leftPart (limited old val.length) pt) (val.drop pt.raw.toNat) := by
  obtain ⟨le, usr, rest⟩ := left_counts tells some_ eq less
  have less' := UInt16.lt_iff_toNat_lt.mp less
  have usr_le := splits.usr_le
  refine ⟨?_, ?_, ?_⟩
  · rw [usr, rest]
    omega
  · intro none i inner
    have inside := inner.2.1
    have short := List.drop_eq_nil_iff.mp none
    simp only at inside
    rw [usr] at inside
    omega
  · intro _ _ short
    rw [List.length_drop, usr] at short
    omega

/-- The points that are tried of what is left are the ones behind. -/
theorem take_left {old pt : Linepart} {val : List α}
    (usr : (leftPart (limited old val.length) pt).usr.toNat =
      min old.usr.toNat val.length - pt.raw.toNat) :
    (val.drop pt.raw.toNat).take (leftPart (limited old val.length) pt).usr.toNat =
      (val.take old.usr.toNat).drop pt.raw.toNat := by
  rw [usr, List.drop_take]
  by_cases short : old.usr.toNat ≤ val.length
  · rw [Nat.min_eq_left short]
  · rw [Nat.min_eq_right (by omega), List.take_of_length_le (by rw [List.length_drop]),
      List.take_of_length_le (by rw [List.length_drop]; omega)]

/-- The window is the same with the limit. -/
theorem take_limited (old : Linepart) (val : List α) :
    val.take (limited old val.length).usr.toNat = val.take old.usr.toNat := by
  rw [(limited_usr old val.length).1]
  by_cases short : old.usr.toNat ≤ val.length
  · rw [Nat.min_eq_left short]
  · rw [Nat.min_eq_right (by omega), List.take_length, List.take_of_length_le (by omega)]

/-- The pieces have the inner points of the old part that are in range. -/
theorem inners_pieces (tells : Tells tr dim ins dom) {old : Linepart} {val : List α}
    (known : dom (val.take old.usr.toNat)) (splits : Splits ins old val) (i : Nat) :
    Inners (pieces tr dim old val) i ↔ Wanted old i ∧ Visible ins val i := by
  fun_induction pieces tr dim old val generalizing i with
  | case1 old val none =>
      simp only [Inners, and_false, or_false]
      rcases none with none | rfl
      · have zero : old.usr.toNat = 0 := by rw [none]; rfl
        refine iff_of_false ?_ ?_
        · intro inner
          have inside := inner.2.1
          simp only at inside
          omega
        · rintro ⟨wanted, _⟩
          have inside := wanted.1
          omega
      · refine iff_of_false (splits.none rfl i) ?_
        rintro ⟨_, seen⟩
        exact absurd (visible_lt seen) (Nat.not_lt_zero i)
  | case2 old val none old' pt less ih =>
      obtain ⟨window, _, cut, trim⟩ : old'.usr.toNat = min old.usr.toNat val.length ∧
        old'.raw = old.raw ∧ old'.cut = old.cut ∧ old'.trim = old.trim := limited_usr old val.length
      obtain ⟨le, usr', raw'⟩ := left_counts tells none
        (show cutPart tr dim (limited old val.length) val = pt from rfl) less
      have splits' := splits_left tells splits none
        (show cutPart tr dim (limited old val.length) val = pt from rfl) less
      have pos : 1 ≤ pt.raw.toNat := cutPart_pos (not_or.mp none).1 (not_or.mp none).2
      have less' := UInt16.lt_iff_toNat_lt.mp less
      have front : InnerPoint i (0, pt) ↔ i < pt.raw.toNat ∧
        Visible ins (val.take old'.usr.toNat) i ∧ (old'.cut ≠ 0 → i ≠ 0) :=
          cutPart_inner tells (by rw [take_limited]; exact known) (view_some none).1 i
      rw [visible_take, window, cut] at front
      have usr_le := splits.usr_le
      have apart := splits.trim
      have known' : dom ((val.drop pt.raw.toNat).take (leftPart old' pt).usr.toNat) := by
        rw [show _ = (val.take old.usr.toNat).drop pt.raw.toNat from take_left usr']
        exact tells.rest _ _ known
      rw [Inners, front, ih known' splits' (i - pt.raw.toNat), visible_drop]
      unfold Wanted
      have trim' : (leftPart old' pt).trim = old.trim := trim
      have cut' : (leftPart old' pt).cut = 0 := rfl
      have usr_eq : (leftPart old' pt).usr.toNat = _ := usr'
      have raw_eq : (leftPart old' pt).raw.toNat = _ := raw'
      rw [trim', cut', usr_eq, raw_eq]
      constructor
      · rintro (⟨inside, ⟨_, seen⟩, head⟩ | ⟨behind, ⟨inside, _, last⟩, seen⟩)
        · exact ⟨⟨by omega, head, fun _ _ => by omega⟩, seen⟩
        · rw [Nat.add_sub_cancel' behind] at seen
          have there := visible_lt seen
          refine ⟨⟨by omega, fun _ => by omega, ?_⟩, seen⟩
          intro marked all ends
          exact last marked (by omega) (by omega)
      · rintro ⟨⟨inside, head, last⟩, seen⟩
        have there := visible_lt seen
        by_cases before : i < pt.raw.toNat
        · exact .inl ⟨before, ⟨by omega, seen⟩, head⟩
        · refine .inr ⟨by omega, ⟨by omega, fun ne => absurd rfl ne, ?_⟩, ?_⟩
          · intro marked all ends
            by_cases short : val.length < old.usr.toNat
            · refine apart (not_or.mp none).2 marked short (by omega) ?_
              rw [show val.length - 1 = i by omega]
              exact ⟨seen, head⟩
            · exact last marked (by omega) (by omega)
          · rwa [Nat.add_sub_cancel' (by omega)]
  | case3 old val none old' pt less =>
      obtain ⟨window, raw, cut, trim⟩ : old'.usr.toNat = min old.usr.toNat val.length ∧
        old'.raw = old.raw ∧ old'.cut = old.cut ∧ old'.trim = old.trim := limited_usr old val.length
      obtain ⟨view, length⟩ : val.take old'.usr.toNat ≠ [] ∧
        (val.take old'.usr.toNat).length = min old.usr.toNat val.length := view_some none
      have same : pt.raw = (tr.part dim (val.take old'.usr.toNat)).raw ∧
          pt.usr = (tr.part dim (val.take old'.usr.toNat)).usr ∧
          pt.trim = (tr.part dim (val.take old'.usr.toNat)).trim := cutPart_same old' val
      obtain ⟨raw_eq, usr_eq, trim_eq⟩ := same
      have known' : dom (val.take old'.usr.toNat) := by
        rw [show val.take old'.usr.toNat = _ from take_limited old val]
        exact known
      have le := (tells.stretch _ view (take_small old' val)).raw_le
      have usr_le' := (tells.stretch _ view (take_small old' val)).usr_le
      have next := tells.next view (take_small old' val)
      have ends := (tells.marked _ known' view (take_small old' val)).whole
      have front : InnerPoint i (0, pt) ↔ i < pt.raw.toNat ∧
        Visible ins (val.take old'.usr.toNat) i ∧ (old'.cut ≠ 0 → i ≠ 0) :=
          cutPart_inner tells known' view i
      rw [← raw_eq, length] at le next
      rw [← usr_eq, length] at usr_le' ends
      rw [← trim_eq] at ends
      rw [visible_take, window] at next
      rw [visible_take, window, cut] at front
      have whole := Nat.le_of_not_lt (mt UInt16.lt_iff_toNat_lt.mpr less)
      have usr_le := splits.usr_le
      have apart := splits.trim
      simp only [Inners, and_false, or_false]
      rw [lastPart_inner, trim]
      unfold Wanted
      constructor
      · rintro ⟨inner, last⟩
        obtain ⟨_, ⟨inside, seen⟩, head⟩ := front.mp inner
        have shown := inner.2.1
        simp only [Nat.zero_add] at shown
        refine ⟨⟨by omega, head, ?_⟩, seen⟩
        intro marked _ at_end
        exact last marked (by omega)
      · rintro ⟨⟨inside, head, last⟩, seen⟩
        have there := visible_lt seen
        have before : i < pt.raw.toNat := by
          by_contra behind
          have at_next : i = pt.raw.toNat := by omega
          rw [at_next] at seen
          exact next (by omega) ⟨by omega, seen⟩
        have inner := front.mpr ⟨before, ⟨by omega, seen⟩, head⟩
        refine ⟨inner, ?_⟩
        intro marked at_end
        by_cases trimmed : pt.trim = 0
        · by_cases short : val.length < old.usr.toNat
          · have := ends trimmed
            refine apart (not_or.mp none).2 marked short (by omega) ?_
            rw [show val.length - 1 = i by omega]
            exact ⟨seen, head⟩
          · have := ends trimmed
            exact last marked (by omega) (by omega)
        · exact inner.2.2.2 trimmed (by rw [Nat.zero_add]; exact at_end)

/-! ## The transformation with ranges -/

section
variable [LinearOrder α] {code : (outside limit inside : α) → UInt16} {min max : α}

/-- Where one of two neighbours is in range and the other one is not, the code of the line from
    the one to the other is not zero. -/
def Coded (code : (outside limit inside : α) → UInt16) (range : Option (α × α)) (x y : α) : Prop :=
  ∀ min max limit, range = some (min, max) →
    (beyond min max x = some limit → inside min max y = true → code x limit y ≠ 0) ∧
    (beyond min max y = some limit → inside min max x = true → code y limit x ≠ 0)

theorem countVisible_trim {prev : α} {usr : Nat} {points : List α}
    (codes : (prev :: points).IsChain (Coded code (some (min, max)))) {n : Nat} {trim : UInt16}
    {rest : List α} (count : countVisible code min max prev usr points = (n, some (trim, rest)))
    (seen : inside min max prev = true ∨ n ≠ usr) : trim ≠ 0 := by
  induction points generalizing prev usr with
  | nil => cases count
  | cons x points ih =>
      obtain ⟨both, others⟩ := List.isChain_cons_cons.mp codes
      unfold countVisible at count
      cases outside : beyond min max x with
      | some limit =>
          rw [outside] at count
          cases count
          exact (both min max limit rfl).2 outside (seen.resolve_right fun ne => ne rfl)
      | none =>
          rw [outside] at count
          exact ih others count (.inl (beyond_none.mp outside))

theorem linearFrom_marked {prev : α} {head points : List α} {cut : UInt16}
    (codes : (prev :: points).IsChain (Coded code (some (min, max))))
    (small : (head ++ points).length ≤ partMax)
    (start : head = [] ∧ cut = 0 ∨
      ∃ x y, head = [x, y] ∧ inside min max y = true ∧ prev = y ∧ cut ≠ 0) :
    Marked (inside min max) (head ++ points)
      (linearFrom code min max prev head.length cut points) := by
  have size : (head ++ points).length = head.length + points.length := List.length_append
  obtain ⟨u, front, ending⟩ := @countVisible_eq _ _ code min max prev head.length points
  have seen (i : Nat) (less : i < head.length + u) (within : u ≤ points.length) :
      Visible (inside min max) (head ++ points) i ∨ i = 0 ∧ cut ≠ 0 := by
    by_cases later : 1 ≤ i ∨ head = []
    · have begin_ : head = [] ∨ ∃ x y, head = [x, y] ∧ inside min max y = true := by
        rcases start with ⟨first, _⟩ | ⟨x, y, eq, second, _⟩
        · exact .inl first
        · exact .inr ⟨x, y, eq, second⟩
      exact .inl (visible_front begin_ front within less later)
    · obtain ⟨rfl, _⟩ | ⟨x, y, _, _, _, marked⟩ := start
      · exact absurd (.inr rfl) later
      · exact .inr ⟨by omega, marked⟩
  have begins (less : 0 < head.length + u) (within : u ≤ points.length) :
      Visible (inside min max) (head ++ points) 0 ∨ cut ≠ 0 ∧ 2 ≤ head.length := by
    obtain ⟨first, _⟩ | ⟨x, y, pair, _, _, marked⟩ := start
    · exact .inl (visible_front (.inl first) front within less (.inr first))
    · exact .inr ⟨marked, by rw [pair]; exact Nat.le_refl 2⟩
  have uncut (none : head.length = 0) : cut = 0 := by
    obtain ⟨_, uncut⟩ | ⟨x, y, pair, _⟩ := start
    · exact uncut
    · rw [pair] at none
      cases none
  unfold linearFrom
  obtain ⟨all, count⟩ | ⟨x, trim, found, _, count⟩ := ending
  · simp only [count]
    have usr := toNat_count (n := head.length + u) (by omega)
    refine ⟨?_, fun _ => .inr (by rw [usr]; omega), ?_, ?_⟩
    · intro i less
      rw [usr] at less
      exact (seen i less (by omega)).imp_right .inl
    · intro some_
      simp only at some_ ⊢
      rw [usr] at some_ ⊢
      exact (begins (by omega) (by omega)).imp_right (And.imp_right fun two => by omega)
    · intro none
      simp only at none ⊢
      rw [usr] at none
      exact ⟨uncut (by omega), trivial⟩
  · have inner : u < points.length := (List.getElem?_eq_some_iff.mp found).1
    have usr := toNat_count (n := head.length + u + 1) (by omega)
    simp only [count]
    by_cases none : head.length + u = 0
    · rw [if_pos none]
      exact ⟨fun i less => absurd less (Nat.not_lt_zero i), fun _ => .inl rfl,
        fun some_ => absurd rfl some_, fun _ => ⟨uncut (by omega), rfl⟩⟩
    · have before : inside min max prev = true ∨ head.length + u ≠ head.length := by
        obtain ⟨rfl, _⟩ | ⟨x, y, _, second, rfl, _⟩ := start
        · exact .inr none
        · exact .inl second
      have marked := countVisible_trim codes count before
      rw [if_neg none]
      refine ⟨?_, fun untrimmed => absurd untrimmed marked, ?_, ?_⟩
      · intro i less
        simp only at less ⊢
        rw [usr] at less ⊢
        by_cases last : i = head.length + u
        · exact .inr (.inr ⟨by omega, marked⟩)
        · exact (seen i (by omega) (by omega)).imp_right .inl
      · intro _
        simp only
        rw [usr]
        exact (begins (by omega) (by omega)).imp_right (And.imp_right fun two => by omega)
      · intro blank
        simp only at blank
        rw [usr] at blank
        cases blank

theorem linear_marked {range : Option (α × α)} {points : List α}
    (codes : points.IsChain (Coded code range)) (small : points.length ≤ partMax) :
    Marked (inRange range) points (linear code range points) := by
  unfold linear
  rw [List.take_of_length_le small]
  cases range with
  | none =>
      have count := toNat_count small
      have all (i : Nat) (less : i < points.length) : Visible (inRange none) points i :=
        ⟨points[i], List.getElem?_eq_getElem less, rfl⟩
      refine ⟨?_, fun _ => .inr count, ?_, fun _ => ⟨rfl, rfl⟩⟩
      · intro i less
        simp only at less
        rw [count] at less
        exact .inl (all i less)
      · intro some_
        simp only at some_
        rw [count] at some_
        exact .inl (all 0 (Nat.pos_of_ne_zero some_))
  | some limits =>
      obtain ⟨min, max⟩ := limits
      have plain (x : α) (rest : List α) (eq : points = x :: rest) :
          Marked (inside min max) points (linearFrom code min max x 0 0 points) := by
        refine @linearFrom_marked _ _ code min max x [] points 0 ?_ small (.inl ⟨rfl, rfl⟩)
        rw [eq] at codes ⊢
        refine List.isChain_cons_cons.mpr ⟨?_, codes⟩
        rintro _ _ limit ⟨⟩
        constructor
        · intro outside seen
          rw [beyond_none.mpr seen] at outside
          cases outside
        · intro outside seen
          rw [beyond_none.mpr seen] at outside
          cases outside
      rcases points with _ | ⟨x, _ | ⟨y, rest⟩⟩
      · exact ⟨fun i less => absurd less (Nat.not_lt_zero i), fun _ => .inl rfl,
          fun some_ => absurd rfl some_, fun _ => ⟨rfl, rfl⟩⟩
      · exact plain x [] rfl
      · obtain ⟨both, others⟩ := List.isChain_cons_cons.mp codes
        simp only
        cases seen : beyond min max x with
        | none => exact plain x (y :: rest) rfl
        | some limit =>
            by_cases second : min ≤ y ∧ y ≤ max
            · have marked := (both min max limit rfl).1 seen (decide_eq_true second)
              simp only [second]
              exact @linearFrom_marked _ _ code min max y [x, y] rest _ others small
                (.inr ⟨x, y, rfl, decide_eq_true second, rfl, marked⟩)
            · simp only [second, if_false]
              exact plain x (y :: rest) rfl

/-- The transformation of the base class with a range for each dimension. -/
def rangeTransform (code : (outside limit inside : α) → UInt16) (dimensions : Nat)
    (ranges : Nat → Option (α × α)) : Transform α where
  dimensions := dimensions
  part dim points := linear code (ranges dim) points
  routine _ := .linear
  passes _ _ _ := (linear_stretch _ (List.cons_ne_nil _ _)).some_

/-- Where no cut or trim is so small that its code is zero, the parts tell all. -/
theorem rangeTransform_tells (dimensions : Nat) (ranges : Nat → Option (α × α)) (dim : Nat) :
    Tells (rangeTransform code dimensions ranges) dim (inRange (ranges dim))
      fun points => points.IsChain (Coded code (ranges dim)) where
  rest _ n codes := codes.drop n
  stretch points some_ small := by
    have part := @linear_stretch _ _ code (ranges dim) points some_
    rwa [List.take_of_length_le small] at part
  marked _ codes _ small := linear_marked codes small

end

/-! ## All parts -/

/-- An old part for which the window that remains is the right one, with the values left: none of
    its points is beyond all values, and where it is trimmed, nothing is shown at the end of a
    window that ends before the part, nor at the end of the values where the window is one
    longer. -/
structure Meets (ins : α → Bool) (old : Linepart) (val : List α) : Prop where
  none : val = [] → ∀ i, ¬ InnerPoint i (0, old)
  early : old.trim ≠ 0 → old.usr ≠ 0 → old.usr.toNat < old.raw.toNat → old.usr.toNat ≤ val.length →
    ¬ Shown ins old val (old.usr.toNat - 1)
  short : val ≠ [] → old.trim ≠ 0 → val.length < old.usr.toNat → val.length = old.raw.toNat →
    ¬ Shown ins old val (val.length - 1)

/-- All parts do, each with the values that are left for it. -/
def MeetsAll (ins : α → Bool) : List Linepart → List α → Prop
  | [], _ => True
  | old :: olds, val => Meets ins old val ∧ MeetsAll ins olds (val.drop old.raw.toNat)

/-- The windows of all parts. -/
def WindowsAll (dom : List α → Prop) : List Linepart → List α → Prop
  | [], _ => True
  | old :: olds, val => dom (val.take old.usr.toNat) ∧ WindowsAll dom olds (val.drop old.raw.toNat)

theorem inners_allPieces (tells : Tells tr dim ins dom) {olds : List Linepart} {val : List α}
    (windows : ∀ old ∈ olds, old.usr.toNat ≤ old.raw.toNat + 1) (known : WindowsAll dom olds val)
    (meets : MeetsAll ins olds val) (i : Nat) :
    Inners (allPieces tr dim olds val) i ↔ Inners olds i ∧ Visible ins val i := by
  induction olds generalizing val i with
  | nil => simp [allPieces, Inners]
  | cons old olds ih =>
      obtain ⟨here, others⟩ := meets
      have usr_le := windows old (List.mem_cons_self)
      have splits : Splits ins old val := ⟨usr_le, here.none, here.short⟩
      have inner : Visible ins val i → (Wanted old i ↔ InnerPoint i (0, old)) := by
        intro seen
        have there := visible_lt seen
        unfold Wanted InnerPoint
        simp only [Nat.zero_le, Nat.zero_add, true_and]
        constructor
        · rintro ⟨inside, head, last⟩
          refine ⟨inside, head, ?_⟩
          intro marked ends
          by_cases all : old.raw.toNat ≤ old.usr.toNat
          · exact last marked all ends
          · refine here.early marked (toNat_ne.mpr (by omega)) (by omega) (by omega) ?_
            rw [show old.usr.toNat - 1 = i by omega]
            exact ⟨seen, head⟩
        · rintro ⟨inside, head, last⟩
          exact ⟨inside, head, fun marked _ => last marked⟩
      rw [allPieces, inners_append, inners_pieces tells known.1 splits, lengthRaw_pieces, Inners,
        ih (fun part mem => windows part (List.mem_cons_of_mem _ mem)) known.2 others, visible_drop]
      constructor
      · rintro (⟨wanted, seen⟩ | ⟨le, there, seen⟩)
        · exact ⟨.inl ((inner seen).mp wanted), seen⟩
        · rw [Nat.add_sub_cancel' le] at seen
          exact ⟨.inr ⟨le, there⟩, seen⟩
      · rintro ⟨point | ⟨le, there⟩, seen⟩
        · exact .inl ⟨(inner seen).mpr point, seen⟩
        · refine .inr ⟨le, there, ?_⟩
          rwa [Nat.add_sub_cancel' le]

theorem lengthRaw_allPieces (olds : List Linepart) (val : List α) :
    lengthRaw (allPieces tr dim olds val) = lengthRaw olds := by
  induction olds generalizing val with
  | nil => rfl
  | cons old olds ih =>
      rw [allPieces, lengthRaw_append, lengthRaw_pieces, ih]
      simp [lengthRaw]

theorem applyParts_eq {val : List α} {parts : List Linepart} (known : dim < tr.dimensions)
    (values : val ≠ []) (some_ : parts ≠ []) :
    applyParts tr dim val parts =
      some ((allPieces tr dim parts val).foldl addPart [], true) := by
  unfold applyParts
  rw [if_neg (by simp [values, known]), if_neg some_, applyLoop_eq (Nat.le_refl _)]
  rfl

/-- The parts of `linepart::array::set` take the length between them. -/
theorem fillParts_spec (len : Nat) (parts : List Linepart) (room : len ≤ parts.length * setMax) :
    lengthRaw (fillParts len parts) = len ∧ ∀ part ∈ fillParts len parts, part.usr = part.raw := by
  induction parts generalizing len with
  | nil =>
      have none : len = 0 := by simpa using room
      exact ⟨none.symm, fun _ mem => nomatch mem⟩
  | cons part parts ih =>
      rw [List.length_cons, Nat.succ_mul] at room
      have total (x : Linepart) (xs : List Linepart) :
          lengthRaw (x :: xs) = x.raw.toNat + lengthRaw xs := by simp [lengthRaw]
      unfold fillParts
      by_cases less : len < setMax
      · obtain ⟨sum, same⟩ := ih 0 (Nat.zero_le _)
        have small : len ≤ partMax := Nat.le_trans (Nat.le_of_lt less) (by decide)
        rw [if_pos less, total, sum]
        exact ⟨toNat_count small, List.forall_mem_cons.mpr ⟨rfl, same⟩⟩
      · obtain ⟨sum, same⟩ := ih (len - setMax) (by omega)
        have count : (UInt16.ofNat setMax).toNat = setMax := toNat_count (by decide)
        rw [if_neg less, total, sum, count]
        exact ⟨by omega, List.forall_mem_cons.mpr ⟨rfl, same⟩⟩

theorem setParts_spec {parts parts' : List Linepart} {len : Int} {granted : Bool}
    (set : setParts parts len granted = (parts', true)) :
    lengthRaw parts' = (if len < 0 then lengthRaw parts else len.toNat) ∧
      ∀ part ∈ parts', part.usr = part.raw := by
  unfold setParts at set
  by_cases none : len = 0
  · rw [if_pos none] at set
    cases set
    subst none
    exact ⟨rfl, fun _ mem => nomatch mem⟩
  · rw [if_neg none] at set
    simp only at set
    generalize (if len < 0 then lengthRaw parts else len.toNat) = total at *
    split at set
    · cases set
      apply fillParts_spec
      rw [List.length_append, List.length_take, List.length_replicate]
      generalize counted : (if total / setMax * setMax < total then total / setMax + 1
        else total / setMax) = num
      have enough : total ≤ num * setMax := by
        have pos : 0 < setMax := by decide
        have quotient := Nat.lt_mul_div_succ total pos
        rw [← counted]
        split
        · rw [Nat.mul_comm]
          exact Nat.le_of_lt quotient
        · next le => exact Nat.le_of_not_lt le
      have all : min num parts.length + (num - parts.length) = num := by omega
      rw [all]
      exact enough
    · cases set

end

end Mpt.Plot
