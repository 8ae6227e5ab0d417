import Mpt.Plot.Apply

/-! # Joined parts of several dimensions

What a join loses is seen from the old parts and the values: the end of the parts so far is
followed over the old ones, with the number of points that it is open with.
-/

namespace Mpt.Plot

/-! ## The end of the parts -/

/-- How the parts so far end: closed for what comes next, open with so many points, or open with
    a cut and without a point. -/
inductive Tip where
  | closed
  | bare
  | opened (count : Nat)
  deriving DecidableEq

/-- There is room in the last part for that many values and points. -/
def Tip.Room (raw usr : Nat) : Tip → Prop
  | closed => False
  | bare => True
  | opened count => count + raw ≤ partMax ∧ count + usr ≤ partMax

instance (raw usr : Nat) : (tip : Tip) → Decidable (tip.Room raw usr)
  | .closed => inferInstanceAs (Decidable False)
  | .bare => inferInstanceAs (Decidable True)
  | .opened _ => inferInstanceAs (Decidable (_ ∧ _))

/-- The end of a part that nothing is joined to. -/
def Linepart.tip (part : Linepart) : Tip :=
  if part.usr = part.raw ∧ part.trim = 0 then
    if part.raw = 0 ∧ part.cut ≠ 0 then .bare else .opened part.raw.toNat
  else .closed

/-- The end behind a part with that many values and points that is joined. -/
def Tip.joined (raw usr : Nat) : Tip → Tip
  | closed => .closed
  | bare => if raw = usr then if raw = 0 then .bare else .opened raw else .closed
  | opened count => if raw = usr then .opened (count + raw) else .closed

/-- The end behind a part. -/
def Tip.add (tip : Tip) (part : Linepart) : Tip :=
  if part.cut = 0 ∧ tip.Room part.raw.toNat part.usr.toNat then
    tip.joined part.raw.toNat part.usr.toNat
  else part.tip

/-- The end of all parts. -/
def lastTip (parts : List Linepart) : Tip :=
  match parts.getLast? with
  | none => .closed
  | some last => last.tip

/-- Nothing is lost where the part is joined behind this end. -/
def Tip.Keeps (tip : Tip) (part : Linepart) : Prop :=
  part.cut = 0 → tip.Room part.raw.toNat part.usr.toNat →
    part.usr = 0 ∨ part.trim = 0 ∧ tip ≠ .bare

/-- Nothing is lost where the parts are joined one after the other. -/
def KeepsAll : Tip → List Linepart → Prop
  | _, [] => True
  | tip, part :: parts => tip.Keeps part ∧ KeepsAll (tip.add part) parts

theorem tip_open {part : Linepart} (same : part.usr = part.raw) (trim : part.trim = 0) :
    part.tip = if part.raw = 0 ∧ part.cut ≠ 0 then .bare else .opened part.raw.toNat :=
  if_pos ⟨same, trim⟩

theorem tip_shut {part : Linepart} (shut : ¬ (part.usr = part.raw ∧ part.trim = 0)) :
    part.tip = .closed :=
  if_neg shut

theorem tip_room {last part both : Linepart} (joined : last.join part = some both) :
    part.cut = 0 ∧ last.tip.Room part.raw.toNat part.usr.toNat := by
  obtain ⟨raw, usr, _, _, same, trim, cut⟩ := join_cases joined
  have := UInt16.toNat_lt both.raw
  have := UInt16.toNat_lt both.usr
  refine ⟨cut, ?_⟩
  rw [tip_open same trim]
  split
  · trivial
  · rw [same] at usr
    unfold Tip.Room partMax
    omega

theorem join_room {last part : Linepart} (cut : part.cut = 0)
    (room : last.tip.Room part.raw.toNat part.usr.toNat) :
    ∃ both, last.join part = some both ∧
      both.tip = last.tip.joined part.raw.toNat part.usr.toNat := by
  have := UInt16.toNat_lt part.raw
  have := UInt16.toNat_lt part.usr
  by_cases open_ : last.usr = last.raw ∧ last.trim = 0
  · obtain ⟨same, trim⟩ := open_
    have fits : last.raw.toNat + part.raw.toNat ≤ partMax ∧
        last.raw.toNat + part.usr.toNat ≤ partMax := by
      rw [tip_open same trim] at room
      split at room
      · next none =>
          rw [none.1]
          unfold partMax
          simp only [UInt16.toNat_zero]
          omega
      · exact room
    unfold partMax at fits
    obtain ⟨both, joined⟩ : ∃ both, last.join part = some both := by
      refine ⟨{ last with raw := last.raw + part.raw, usr := last.usr + part.usr }, ?_⟩
      unfold Linepart.join
      rw [if_neg (by omega), if_neg (by rw [same]; omega), if_neg (by simp [same, trim, cut])]
    refine ⟨both, joined, ?_⟩
    obtain ⟨raw, usr, cut', trim', _, _, _⟩ := join_cases joined
    have equal : both.usr = both.raw ↔ part.raw.toNat = part.usr.toNat := by
      rw [← UInt16.toNat_inj, raw, usr, same]
      omega
    have zero : both.raw = 0 ↔ last.raw = 0 ∧ part.raw.toNat = 0 := by
      rw [← UInt16.toNat_inj, ← UInt16.toNat_inj, raw]
      simp only [UInt16.toNat_zero]
      omega
    have tip : both.tip = if part.raw.toNat = part.usr.toNat then
        if (last.raw = 0 ∧ part.raw.toNat = 0) ∧ last.cut ≠ 0 then .bare
        else .opened (last.raw.toNat + part.raw.toNat) else .closed := by
      unfold Linepart.tip
      simp only [equal, trim', and_true, zero, cut', raw]
    rw [tip, tip_open same trim]
    by_cases bare : last.raw = 0 ∧ last.cut ≠ 0
    · rw [if_pos bare]
      simp [Tip.joined, bare.1, bare.2]
    · have more : ¬ ((last.raw = 0 ∧ part.raw.toNat = 0) ∧ last.cut ≠ 0) :=
        fun both => bare ⟨both.1.1, both.2⟩
      rw [if_neg bare, if_neg more]
      rfl
  · rw [tip_shut open_] at room
    exact absurd room id

theorem lastTip_add (parts : List Linepart) (part : Linepart) :
    lastTip (addPart parts part) = (lastTip parts).add part := by
  rcases List.eq_nil_or_concat parts with rfl | ⟨init, last, rfl⟩
  · simp [addPart, lastTip, Tip.add, Tip.Room]
  · unfold addPart lastTip Tip.add
    simp only [List.concat_eq_append, List.getLast?_append, List.getLast?_singleton,
      Option.some_or, List.dropLast_concat]
    cases joined : last.join part with
    | none =>
        have apart : ¬ (part.cut = 0 ∧ last.tip.Room part.raw.toNat part.usr.toNat) := by
          rintro ⟨cut, room⟩
          obtain ⟨both, some_, _⟩ := join_room cut room
          rw [joined] at some_
          cases some_
        rw [if_neg apart]
        simp
    | some both =>
        have room := tip_room joined
        obtain ⟨both', some_, tip⟩ := join_room room.1 room.2
        rw [joined] at some_
        cases some_
        rw [if_pos room, ← tip]
        simp

theorem adds_keeps {parts : List Linepart} {part : Linepart}
    (keeps : (lastTip parts).Keeps part) : Adds parts part := by
  intro last both found joined
  obtain ⟨cut, room⟩ := tip_room joined
  have at_last : lastTip parts = last.tip := by
    unfold lastTip
    rw [found]
  rw [at_last] at keeps
  refine (keeps cut room).imp_right ?_
  rintro ⟨untrimmed, some_⟩
  refine ⟨untrimmed, ?_⟩
  obtain ⟨_, _, _, _, same, trim, _⟩ := join_cases joined
  by_contra bare
  simp only [not_or, not_not] at bare
  apply some_
  rw [tip_open same trim, if_pos ⟨same.symm.trans bare.1, bare.2⟩]

theorem addsAll_keeps {parts pieces : List Linepart} (keeps : KeepsAll (lastTip parts) pieces) :
    AddsAll parts pieces := by
  induction pieces generalizing parts with
  | nil => trivial
  | cons piece pieces ih =>
      refine ⟨adds_keeps keeps.1, ih ?_⟩
      rw [lastTip_add]
      exact keeps.2

theorem keepsAll_append {tip : Tip} {front parts : List Linepart} (keeps : KeepsAll tip front)
    (behind : KeepsAll (front.foldl Tip.add tip) parts) : KeepsAll tip (front ++ parts) := by
  induction front generalizing tip with
  | nil => exact behind
  | cons part front ih => exact ⟨keeps.1, ih keeps.2 behind⟩

theorem joined_apart {tip : Tip} {raw usr : Nat} (apart : raw ≠ usr) :
    tip.joined raw usr = .closed := by
  cases tip with
  | closed => rfl
  | bare => exact if_neg apart
  | opened count => exact if_neg apart

theorem add_apart {tip : Tip} {part : Linepart} (apart : part.usr ≠ part.raw) :
    tip.add part = .closed := by
  unfold Tip.add
  split
  · exact joined_apart fun same => apart (UInt16.toNat_inj.mp same.symm)
  · exact tip_shut fun both => apart both.1

/-- A part that is not open itself closes the end, where nothing is lost. -/
theorem add_closed {tip : Tip} {part : Linepart} (keeps : tip.Keeps part)
    (some_ : 1 ≤ part.raw.toNat) (shut : ¬ (part.usr = part.raw ∧ part.trim = 0)) :
    tip.add part = .closed := by
  by_cases same : part.usr = part.raw
  · unfold Tip.add
    rw [if_neg, tip_shut shut]
    rintro ⟨cut, room⟩
    rcases keeps cut room with none | ⟨untrimmed, _⟩
    · rw [← same, none] at some_
      cases some_
    · exact shut ⟨same, untrimmed⟩
  · exact add_apart same

/-- Only the counts, and whether there is a cut or a trim, matter for the end. -/
theorem add_congr {tip : Tip} {part part' : Linepart} (raw : part.raw = part'.raw)
    (usr : part.usr = part'.usr) (cut : part.cut = 0 ↔ part'.cut = 0)
    (trim : part.trim = 0 ↔ part'.trim = 0) : tip.add part = tip.add part' := by
  unfold Tip.add Linepart.tip
  simp only [raw, usr, cut, trim, ne_eq]

/-! ## What the values tell -/

section
variable {α : Type u} (ins : α → Bool)

/-- The number of values before the next line, which begins with the value that is not in range
    before one that is. -/
def nextLine : List α → Nat
  | [] => 0
  | [_] => 1
  | x :: y :: points => if ins x = false ∧ ins y = true then 0 else nextLine (y :: points) + 1

/-- The number of values from the last one that is not in range on; the first one may be. -/
def openLength : List α → Nat
  | [] => 0
  | _ :: points => if points.all ins then points.length + 1 else openLength points

/-- The old part loses nothing behind this end: where its first point is shown and there is room
    for its first line, all its points are in range, it is not trimmed there and the end has a
    point if it has a cut; where there are no values for it, it has no points or the same holds. -/
structure Follows (tip : Tip) (old : Linepart) (val : List α) : Prop where
  beyond : old.cut = 0 → val.take old.usr.toNat = [] → tip.Room old.raw.toNat old.usr.toNat →
    old.usr = 0 ∨ old.trim = 0 ∧ tip ≠ .bare
  shown : old.cut = 0 → Visible ins (val.take old.usr.toNat) 0 →
    tip.Room (min old.raw.toNat (nextLine ins (val.take old.usr.toNat)))
      (min (val.take old.usr.toNat).length (((val.take old.usr.toNat).takeWhile ins).length + 1)) →
    (val.take old.usr.toNat).all ins = true ∧
      (old.trim = 0 ∨ (val.take old.usr.toNat).length < old.raw.toNat) ∧ tip ≠ .bare

/-- The end behind an old part. -/
def endTip (tip : Tip) (old : Linepart) (val : List α) : Tip :=
  let points := val.take old.usr.toNat
  if points = [] then
    tip.add old
  else if old.raw = 0 then
    if points.all ins then .closed else tip.add { old with usr := 0 }
  else if points.length = old.raw.toNat ∧ old.trim = 0 ∧ points.getLast?.any ins then
    if points.all ins ∧ old.cut = 0 ∧ tip.Room points.length points.length then
      tip.joined points.length points.length
    else .opened (openLength ins points)
  else .closed

/-- All old parts lose nothing, each behind the end of the ones before. -/
def FollowsAll : Tip → List Linepart → List α → Prop
  | _, [], _ => True
  | tip, old :: olds, val =>
      Follows ins tip old val ∧ FollowsAll (endTip ins tip old val) olds (val.drop old.raw.toNat)

variable {ins} {points : List α}

theorem visible_zero {x : α} : Visible ins (x :: points) 0 ↔ ins x = true := by
  constructor
  · rintro ⟨y, found, seen⟩
    cases found
    exact seen
  · exact fun seen => ⟨x, rfl, seen⟩

theorem visible_succ {x : α} {i : Nat} : Visible ins (x :: points) (i + 1) ↔ Visible ins points i :=
  Iff.rfl

theorem all_visible : points.all ins = true ↔ ∀ i, i < points.length → Visible ins points i := by
  rw [List.all_eq_true]
  constructor
  · intro all i less
    exact ⟨points[i], List.getElem?_eq_getElem less, all _ (List.getElem_mem less)⟩
  · intro all x mem
    obtain ⟨i, less, found⟩ := List.getElem_of_mem mem
    obtain ⟨y, there, seen⟩ := all i less
    rw [List.getElem?_eq_getElem less, found] at there
    cases there
    exact seen

theorem last_visible :
    points.getLast?.any ins = true ↔ Visible ins points (points.length - 1) := by
  rw [List.getLast?_eq_getElem?, Option.any_eq_true]
  rfl

theorem nextLine_eq {r : Nat} (le : r ≤ points.length)
    (ends : r = points.length ∨ ¬ Visible ins points r ∧ Visible ins points (r + 1))
    (before : ∀ i, i < r → i + 1 < points.length →
      Visible ins points i ∨ ¬ Visible ins points (i + 1)) : nextLine ins points = r := by
  induction points generalizing r with
  | nil => exact (Nat.le_zero.mp le).symm
  | cons x points ih =>
      cases points with
      | nil =>
          rcases ends with whole | ⟨_, y, found, _⟩
          · exact whole.symm
          · cases found
      | cons y points =>
          unfold nextLine
          by_cases start : ins x = false ∧ ins y = true
          · rw [if_pos start]
            by_contra some_
            rcases before 0 (by omega) (by simp) with first | second
            · rw [visible_zero, start.1] at first
              cases first
            · exact second (visible_succ.mpr (visible_zero.mpr start.2))
          · rw [if_neg start]
            cases r with
            | zero =>
                rcases ends with none | ⟨first, second⟩
                · cases none
                · rw [visible_zero, Bool.not_eq_true] at first
                  exact absurd ⟨first, visible_zero.mp (visible_succ.mp second)⟩ start
            | succ r =>
                rw [ih (Nat.le_of_succ_le_succ le)]
                · exact ends.imp_left Nat.succ.inj
                · intro i less within
                  exact before (i + 1) (Nat.succ_lt_succ less) (Nat.succ_lt_succ within)

theorem takeWhile_eq {u : Nat} (le : u ≤ points.length) (front : ∀ i, i < u → Visible ins points i)
    (ends : u = points.length ∨ ¬ Visible ins points u) : (points.takeWhile ins).length = u := by
  induction points generalizing u with
  | nil => exact (Nat.le_zero.mp le).symm
  | cons x points ih =>
      cases u with
      | zero =>
          rcases ends with none | hidden
          · cases none
          · rw [visible_zero] at hidden
            rw [List.takeWhile_cons_of_neg hidden]
            rfl
      | succ u =>
          rw [List.takeWhile_cons_of_pos (visible_zero.mp (front 0 (Nat.zero_lt_succ u))),
            List.length_cons, ih (Nat.le_of_succ_le_succ le)]
          · intro i less
            exact front (i + 1) (Nat.succ_lt_succ less)
          · exact ends.imp_left Nat.succ.inj

theorem openLength_drop {r : Nat} (less : r < points.length) (hidden : ¬ Visible ins points r) :
    openLength ins (points.drop r) = openLength ins points := by
  induction points generalizing r with
  | nil => cases less
  | cons x points ih =>
      cases r with
      | zero => rfl
      | succ r =>
          have inner := Nat.lt_of_succ_lt_succ less
          have some_ : ¬ points.all ins = true := fun all => hidden (all_visible.mp all r inner)
          rw [List.drop_succ_cons, ih inner hidden]
          exact (if_neg some_).symm

theorem openLength_all (later : ∀ i, 1 ≤ i → i < points.length → Visible ins points i) :
    openLength ins points = points.length := by
  cases points with
  | nil => rfl
  | cons x points =>
      refine if_pos (all_visible.mpr ?_)
      intro i less
      exact later (i + 1) (Nat.le_add_left 1 i) (Nat.succ_lt_succ less)

/-! ## The first line of a window -/

variable {part : Linepart}

theorem Stretch.raw_line (part_ : Stretch (Visible ins points) points.length part)
    (seen : Visible ins points 0) : nextLine ins points = part.raw.toNat := by
  refine nextLine_eq part_.raw_le ?_ ?_
  · exact part_.rising.imp_right fun behind => ⟨behind.1, behind.2.1⟩
  · intro i less within
    cases i with
    | zero => exact .inl seen
    | succ i => exact part_.first (i + 1) (Nat.le_add_left 1 i) less within

/-- A window that begins with a point in range: its points and whether it is trimmed. -/
theorem Marked.first (part_ : Stretch (Visible ins points) points.length part)
    (marked : Marked ins points part) (seen : Visible ins points 0) :
    part.usr.toNat = min points.length ((points.takeWhile ins).length + 1) ∧
      (part.trim = 0 ↔ points.all ins = true) := by
  have some_ := part_.window 0 part_.some_ seen
  have usr_le := part_.usr_le
  have front (i : Nat) (less : i < part.usr.toNat)
      (inner : part.trim ≠ 0 → i + 1 ≠ part.usr.toNat) : Visible ins points i := by
    rcases marked.visible i less with here | ⟨rfl, _⟩ | ⟨ends, trim⟩
    · exact here
    · exact seen
    · exact absurd ends (inner trim)
  by_cases trimmed : part.trim = 0
  · have whole := (marked.whole trimmed).resolve_left (Nat.ne_of_gt some_)
    have all (i : Nat) (less : i < points.length) : Visible ins points i :=
      front i (by omega) fun trim => absurd trimmed trim
    rw [takeWhile_eq (Nat.le_refl _) all (.inl rfl)]
    exact ⟨by omega, iff_of_true trimmed (all_visible.mpr all)⟩
  · have hidden := part_.trim trimmed
    have run := takeWhile_eq (u := part.usr.toNat - 1) (by omega)
      (fun i less => front i (by omega) fun _ => by omega) (.inr hidden)
    rw [run]
    refine ⟨by omega, iff_of_false trimmed ?_⟩
    exact fun all => hidden (all_visible.mp all _ (by omega))

/-- A part that takes all values is open exactly where the last one is in range. -/
theorem Marked.last (part_ : Stretch (Visible ins points) points.length part)
    (marked : Marked ins points part) (whole : part.raw.toNat = points.length) :
    (part.usr.toNat = points.length ∧ part.trim = 0 ↔
      Visible ins points (points.length - 1)) := by
  have some_ := part_.some_
  constructor
  · rintro ⟨all, trimmed⟩
    rcases marked.visible (points.length - 1) (by omega) with seen | ⟨first, cut⟩ | ⟨_, trim⟩
    · exact seen
    · rcases marked.begins (by omega) with seen | ⟨_, two⟩
      · rwa [first]
      · omega
    · exact absurd trimmed trim
  · intro seen
    have within := part_.window _ (by omega) seen
    have usr_le := part_.usr_le
    have all : part.usr.toNat = points.length := by omega
    refine ⟨all, ?_⟩
    by_contra trimmed
    exact part_.trim trimmed (by rwa [all])

theorem Marked.later (marked : Marked ins points part)
    (all : part.usr.toNat = points.length) (trimmed : part.trim = 0) {i : Nat} (pos : 1 ≤ i)
    (less : i < points.length) : Visible ins points i := by
  rcases marked.visible i (by omega) with seen | ⟨first, _⟩ | ⟨_, trim⟩
  · exact seen
  · omega
  · exact absurd trimmed trim

end

/-! ## The pieces of all parts -/

section
variable {α : Type u} {tr : Transform α} {dim : Nat} {ins : α → Bool} {dom : List α → Prop}

theorem cutPart_eq (old : Linepart) (val : List α) :
    (cutPart tr dim (limited old val.length) val).raw = (tr.part dim (val.take old.usr.toNat)).raw ∧
      (cutPart tr dim (limited old val.length) val).usr =
        (tr.part dim (val.take old.usr.toNat)).usr ∧
      (cutPart tr dim (limited old val.length) val).trim =
        (tr.part dim (val.take old.usr.toNat)).trim ∧
      ((cutPart tr dim (limited old val.length) val).cut = 0 ↔
        (tr.part dim (val.take old.usr.toNat)).cut = 0 ∧ old.cut = 0) := by
  obtain ⟨raw, usr, trim⟩ := @cutPart_same _ tr dim (limited old val.length) val
  rw [take_limited] at raw usr trim
  refine ⟨raw, usr, trim, ?_⟩
  unfold cutPart
  rw [take_limited, (limited_usr old val.length).2.2.1]
  by_cases less : (tr.part dim (val.take old.usr.toNat)).cut < old.cut
  · have := UInt16.lt_iff_toNat_lt.mp less
    simp only [if_pos less, ← UInt16.toNat_inj, UInt16.toNat_zero]
    omega
  · have := UInt16.le_iff_toNat_le.mp (UInt16.not_lt.mp less)
    simp only [if_neg less, ← UInt16.toNat_inj, UInt16.toNat_zero]
    omega

theorem lastPart_eq {old pt : Linepart} (whole : ¬ pt.raw < old.raw) :
    (lastPart old pt).raw = old.raw ∧ (lastPart old pt).usr = pt.usr ∧
      (lastPart old pt).cut = pt.cut ∧
      ((lastPart old pt).trim = 0 ↔ pt.trim = 0 ∧ old.trim = 0) := by
  refine ⟨lastPart_raw whole, ?_⟩
  unfold lastPart
  simp only
  have same : (if old.raw < pt.raw then { pt with raw := old.raw } else pt).usr = pt.usr ∧
      (if old.raw < pt.raw then { pt with raw := old.raw } else pt).cut = pt.cut ∧
      (if old.raw < pt.raw then { pt with raw := old.raw } else pt).trim = pt.trim := by
    split <;> exact ⟨rfl, rfl, rfl⟩
  obtain ⟨usr, cut, trim⟩ := same
  rw [trim]
  by_cases less : pt.trim < old.trim
  · have := UInt16.lt_iff_toNat_lt.mp less
    rw [if_pos less]
    refine ⟨usr, cut, ?_⟩
    simp only [← UInt16.toNat_inj, UInt16.toNat_zero]
    omega
  · have := UInt16.le_iff_toNat_le.mp (UInt16.not_lt.mp less)
    rw [if_neg less, trim]
    refine ⟨usr, cut, ?_⟩
    simp only [← UInt16.toNat_inj, UInt16.toNat_zero]
    omega

/-- The first piece of an old part loses nothing. -/
theorem keeps_first {tip : Tip} {old part piece : Linepart} {val : List α}
    (follows : Follows ins tip old val)
    (stretch : Stretch (Visible ins (val.take old.usr.toNat)) (val.take old.usr.toNat).length part)
    (marked : Marked ins (val.take old.usr.toNat) part)
    (raw : piece.raw.toNat = min old.raw.toNat part.raw.toNat) (usr : piece.usr = part.usr)
    (cut : piece.cut = 0 → part.cut = 0 ∧ old.cut = 0)
    (trim : part.trim = 0 → old.trim = 0 ∨ (val.take old.usr.toNat).length < old.raw.toNat →
      piece.trim = 0) : tip.Keeps piece := by
  intro uncut room
  by_cases none : piece.usr = 0
  · exact .inl none
  obtain ⟨uncut', old_uncut⟩ := cut uncut
  have seen : Visible ins (val.take old.usr.toNat) 0 := by
    refine (marked.begins ?_).resolve_right fun both => both.1 uncut'
    rw [← usr]
    exact toNat_ne.mp none
  obtain ⟨points, untrimmed⟩ := marked.first stretch seen
  rw [raw, usr, points, ← stretch.raw_line seen] at room
  obtain ⟨all, last, some_⟩ := follows.shown old_uncut seen room
  exact .inr ⟨trim (untrimmed.mpr all) last, some_⟩

/-- What is left behind the first piece begins with a value that is not in range. -/
theorem follows_left {tip : Tip} {old part pt : Linepart} {val : List α}
    (stretch : Stretch (Visible ins (val.take old.usr.toNat)) (val.take old.usr.toNat).length part)
    (raw : pt.raw = part.raw)
    (usr : (leftPart (limited old val.length) pt).usr.toNat =
      min old.usr.toNat val.length - pt.raw.toNat) :
    Follows ins tip (leftPart (limited old val.length) pt) (val.drop pt.raw.toNat) := by
  have window := take_left usr
  constructor
  · intro _ empty _
    rw [window, List.drop_eq_nil_iff, List.length_take] at empty
    left
    rw [← UInt16.toNat_inj, usr, UInt16.toNat_zero]
    omega
  · intro _ seen
    rw [window, visible_drop, Nat.add_zero, raw] at seen
    have less := visible_lt seen
    rcases stretch.rising with all | ⟨hidden, _⟩
    · omega
    · exact absurd seen hidden

/-- What is left ends as the part does. -/
theorem endTip_left {tip tip' : Tip} {old part pt : Linepart} {val : List α}
    (stretch : Stretch (Visible ins (val.take old.usr.toNat)) (val.take old.usr.toNat).length part)
    (raw : pt.raw = part.raw) (view : val.take old.usr.toNat ≠ [])
    (usr' : (leftPart (limited old val.length) pt).usr.toNat =
      min old.usr.toNat val.length - pt.raw.toNat)
    (raw' : (leftPart (limited old val.length) pt).raw.toNat = old.raw.toNat - pt.raw.toNat)
    (less : pt.raw < old.raw) :
    endTip ins tip' (leftPart (limited old val.length) pt) (val.drop pt.raw.toNat) =
      endTip ins tip old val := by
  have less' := UInt16.lt_iff_toNat_lt.mp less
  have length : (val.take old.usr.toNat).length = min old.usr.toNat val.length := List.length_take
  have trim : (leftPart (limited old val.length) pt).trim = old.trim :=
    (limited_usr old val.length).2.2.2
  have some_ : old.raw ≠ 0 := toNat_ne.mpr (by omega)
  have left_some : (leftPart (limited old val.length) pt).raw ≠ 0 := toNat_ne.mpr (by omega)
  unfold endTip
  simp only
  rw [take_left usr', if_neg view, if_neg some_, trim, raw', List.length_drop]
  by_cases whole : (val.take old.usr.toNat).length ≤ pt.raw.toNat
  · rw [if_pos (List.drop_eq_nil_of_le whole), add_apart, if_neg (by omega)]
    rw [ne_eq, ← UInt16.toNat_inj]
    omega
  · rw [if_neg (fun empty => whole (List.drop_eq_nil_iff.mp empty)), if_neg left_some,
      List.getLast?_drop, if_neg whole]
    have hidden : ¬ Visible ins (val.take old.usr.toNat) pt.raw.toNat := by
      rw [raw] at whole ⊢
      rcases stretch.rising with all | ⟨hidden, _⟩
      · omega
      · exact hidden
    have within := Nat.lt_of_not_le whole
    have start : ¬ ((val.take old.usr.toNat).drop pt.raw.toNat).all ins = true := by
      intro all
      refine hidden ?_
      have first := all_visible.mp all 0 (by rw [List.length_drop]; omega)
      rwa [visible_drop] at first
    have all : ¬ (val.take old.usr.toNat).all ins = true := fun all =>
      hidden (all_visible.mp all _ within)
    have counts : (val.take old.usr.toNat).length - pt.raw.toNat =
        old.raw.toNat - pt.raw.toNat ↔ (val.take old.usr.toNat).length = old.raw.toNat := by omega
    rw [openLength_drop within hidden]
    simp only [counts, start, all, Bool.false_eq_true, false_and, if_false]

/-- The last piece ends as the part does. -/
theorem endTip_last {tip : Tip} {old part piece : Linepart} {val : List α}
    (follows : Follows ins tip old val)
    (stretch : Stretch (Visible ins (val.take old.usr.toNat)) (val.take old.usr.toNat).length part)
    (marked : Marked ins (val.take old.usr.toNat) part)
    (view : val.take old.usr.toNat ≠ []) (usr_le : old.usr.toNat ≤ old.raw.toNat + 1)
    (whole : ¬ part.raw < old.raw) (raw : piece.raw = old.raw) (usr : piece.usr = part.usr)
    (cut : piece.cut = 0 ↔ part.cut = 0 ∧ old.cut = 0)
    (trim : piece.trim = 0 ↔ part.trim = 0 ∧ old.trim = 0) :
    tip.Keeps piece ∧ tip.add piece = endTip ins tip old val := by
  have raw_le := UInt16.le_iff_toNat_le.mp (UInt16.not_lt.mp whole)
  have length : (val.take old.usr.toNat).length = min old.usr.toNat val.length := List.length_take
  have part_le := stretch.raw_le
  have part_some := stretch.some_
  have keeps : tip.Keeps piece := keeps_first follows stretch marked (by rw [raw]; omega) usr
    cut.mp fun untrimmed last => trim.mpr ⟨untrimmed, last.resolve_right (by omega)⟩
  refine ⟨keeps, ?_⟩
  unfold endTip
  simp only
  rw [if_neg view]
  by_cases none : old.raw = 0
  · rw [if_pos none]
    have zero : old.raw.toNat = 0 := by rw [none]; rfl
    have one : (val.take old.usr.toNat).length = 1 := by omega
    by_cases all : (val.take old.usr.toNat).all ins = true
    · have seen := all_visible.mp all 0 (by omega)
      have some_ := stretch.window 0 part_some seen
      rw [if_pos all]
      apply add_apart
      rw [raw, usr, none]
      exact toNat_ne.mpr (by omega)
    · have blank : part.usr.toNat = 0 := by
        by_contra some_
        have usr_le' := stretch.usr_le
        rcases marked.begins some_ with seen | ⟨_, two⟩
        · refine all (all_visible.mpr fun i less => ?_)
          rwa [show i = 0 by omega]
        · omega
      obtain ⟨uncut, untrimmed⟩ := marked.blank blank
      rw [if_neg all]
      have same : piece.raw = ({ old with usr := 0 } : Linepart).raw := raw
      apply add_congr same
      · rw [usr]
        exact UInt16.toNat_inj.mp blank
      · rw [cut]
        exact ⟨And.right, fun old_uncut => ⟨uncut, old_uncut⟩⟩
      · rw [trim]
        exact ⟨And.right, fun old_untrimmed => ⟨untrimmed, old_untrimmed⟩⟩
  · rw [if_neg none]
    have some_ := toNat_ne.mp none
    by_cases open_ : (val.take old.usr.toNat).length = old.raw.toNat ∧ old.trim = 0 ∧
        (val.take old.usr.toNat).getLast?.any ins = true
    · obtain ⟨count, old_untrimmed, last⟩ := open_
      obtain ⟨points, untrimmed⟩ :=
        (marked.last stretch (by omega)).mpr (last_visible.mp last)
      have same : piece.usr = piece.raw := by
        rw [raw, usr, ← UInt16.toNat_inj]
        omega
      have first : part.cut = 0 ↔ (val.take old.usr.toNat).all ins = true := by
        constructor
        · intro uncut
          refine all_visible.mpr fun i less => ?_
          by_cases start : i = 0
          · rw [start]
            exact (marked.begins (by omega)).resolve_right fun both => both.1 uncut
          · exact marked.later points untrimmed (by omega) less
        · intro all
          by_contra marked_
          exact stretch.cut marked_ (all_visible.mp all 0 (by omega))
      rw [if_pos ⟨count, old_untrimmed, last⟩]
      have tip_eq : piece.tip = .opened (openLength ins (val.take old.usr.toNat)) := by
        rw [tip_open same (trim.mpr ⟨untrimmed, old_untrimmed⟩),
          if_neg (fun both => none (raw.symm.trans both.1)), raw, ← count,
          openLength_all fun i pos less => marked.later points untrimmed pos less]
      unfold Tip.add
      rw [tip_eq, same, raw, ← count]
      simp only [cut, first, and_assoc]
    · rw [if_neg open_]
      refine add_closed keeps (by rw [raw]; omega) ?_
      rintro ⟨same, untrimmed⟩
      obtain ⟨part_untrimmed, old_untrimmed⟩ := trim.mp untrimmed
      have count : part.usr.toNat = old.raw.toNat := by rw [← usr, same, raw]
      have points := (marked.whole part_untrimmed).resolve_left (by omega)
      have last := (marked.last stretch (by omega)).mp ⟨points, part_untrimmed⟩
      exact open_ ⟨by omega, old_untrimmed, last_visible.mpr last⟩

/-- The pieces of an old part lose nothing where it loses nothing, and end as it does. -/
theorem pieces_keep (tells : Tells tr dim ins dom) {tip : Tip} {old : Linepart} {val : List α}
    (known : dom (val.take old.usr.toNat)) (usr_le : old.usr.toNat ≤ old.raw.toNat + 1)
    (follows : Follows ins tip old val) :
    KeepsAll tip (pieces tr dim old val) ∧
      (pieces tr dim old val).foldl Tip.add tip = endTip ins tip old val := by
  fun_induction pieces tr dim old val generalizing tip with
  | case1 old val none =>
      have empty : val.take old.usr.toNat = [] := by
        rcases none with none | rfl
        · rw [none]
          rfl
        · exact List.take_nil
      refine ⟨⟨fun cut room => follows.beyond cut empty room, trivial⟩, ?_⟩
      unfold endTip
      exact (if_pos empty).symm
  | case2 old val none old' pt less =>
      rename_i ih
      obtain ⟨view, length⟩ := view_some none
      rw [take_limited] at view length
      have stretch := tells.stretch _ view (take_small old val)
      have marked := tells.marked _ known view (take_small old val)
      obtain ⟨raw, usr, trim, cut⟩ : pt.raw = (tr.part dim (val.take old.usr.toNat)).raw ∧
        pt.usr = (tr.part dim (val.take old.usr.toNat)).usr ∧
        pt.trim = (tr.part dim (val.take old.usr.toNat)).trim ∧
        (pt.cut = 0 ↔ (tr.part dim (val.take old.usr.toNat)).cut = 0 ∧ old.cut = 0) :=
          cutPart_eq old val
      obtain ⟨le, usr', raw'⟩ := left_counts tells none
        (show cutPart tr dim (limited old val.length) val = pt from rfl) less
      have less' := UInt16.lt_iff_toNat_lt.mp less
      have some_ : 1 ≤ pt.raw.toNat := cutPart_pos (not_or.mp none).1 (not_or.mp none).2
      have window : (val.drop pt.raw.toNat).take (leftPart old' pt).usr.toNat =
          (val.take old.usr.toNat).drop pt.raw.toNat := take_left usr'
      have usr_eq : (leftPart old' pt).usr.toNat = _ := usr'
      have raw_eq : (leftPart old' pt).raw.toNat = _ := raw'
      have keeps : tip.Keeps pt := keeps_first follows stretch marked (by rw [← raw]; omega) usr
        cut.mp fun untrimmed _ => trim.trans untrimmed
      have follows' : Follows ins (tip.add pt) (leftPart old' pt) (val.drop pt.raw.toNat) :=
        follows_left stretch raw usr'
      have known' : dom ((val.drop pt.raw.toNat).take (leftPart old' pt).usr.toNat) := by
        rw [window]
        exact tells.rest _ _ known
      obtain ⟨others, ends⟩ := ih known' (by omega) follows'
      refine ⟨⟨keeps, others⟩, ?_⟩
      rw [List.foldl_cons, ends]
      exact endTip_left stretch raw view usr' raw' less
  | case3 old val none old' pt =>
      rename_i less
      obtain ⟨view, length⟩ := view_some none
      rw [take_limited] at view length
      have stretch := tells.stretch _ view (take_small old val)
      have marked := tells.marked _ known view (take_small old val)
      obtain ⟨raw, usr, trim, cut⟩ : pt.raw = (tr.part dim (val.take old.usr.toNat)).raw ∧
        pt.usr = (tr.part dim (val.take old.usr.toNat)).usr ∧
        pt.trim = (tr.part dim (val.take old.usr.toNat)).trim ∧
        (pt.cut = 0 ↔ (tr.part dim (val.take old.usr.toNat)).cut = 0 ∧ old.cut = 0) :=
          cutPart_eq old val
      obtain ⟨_, raw_old, _, trim_old⟩ := limited_usr old val.length
      obtain ⟨raw', usr', cut', trim'⟩ :=
        @lastPart_eq (limited old val.length) pt (by rw [raw_old]; exact less)
      have ends : tip.Keeps (lastPart (limited old val.length) pt) ∧
          tip.add (lastPart (limited old val.length) pt) = endTip ins tip old val :=
        endTip_last follows stretch marked view usr_le (by rw [← raw]; exact less)
          (raw'.trans raw_old) (usr'.trans usr) (by rw [cut', cut]) (by rw [trim', trim, trim_old])
      exact ⟨⟨ends.1, trivial⟩, ends.2⟩

theorem allPieces_keep (tells : Tells tr dim ins dom) {olds : List Linepart} {val : List α}
    {tip : Tip} (windows : ∀ old ∈ olds, old.usr.toNat ≤ old.raw.toNat + 1)
    (known : WindowsAll dom olds val) (follows : FollowsAll ins tip olds val) :
    KeepsAll tip (allPieces tr dim olds val) := by
  induction olds generalizing tip val with
  | nil => trivial
  | cons old olds ih =>
      obtain ⟨here, others⟩ := follows
      obtain ⟨keeps, ends⟩ := pieces_keep tells known.1 (windows old List.mem_cons_self) here
      refine keepsAll_append keeps ?_
      rw [ends]
      exact ih (fun part mem => windows part (List.mem_cons_of_mem _ mem)) known.2 others

/-! ## What a loss shows

Points that are added stay in the parts, so that a point that is not to be seen tells of a part
whose end is lost. -/

theorem inners_grow {parts pieces : List Linepart} {i : Nat} (inner : Inners parts i) :
    Inners (pieces.foldl addPart parts) i := by
  induction pieces generalizing parts with
  | nil => exact inner
  | cons piece pieces ih =>
      refine ih ?_
      rcases List.eq_nil_or_concat parts with rfl | ⟨init, last, rfl⟩
      · exact absurd inner id
      · rw [List.concat_eq_append] at inner ⊢
        unfold addPart
        simp only [List.getLast?_append, List.getLast?_singleton, Option.some_or,
          List.dropLast_concat]
        cases joined : last.join piece with
        | none => exact (inners_append _ _ i).mpr (.inl inner)
        | some both =>
            obtain ⟨raw, usr, cut, trim, _, _, _⟩ := join_cases joined
            rw [inners_append] at inner ⊢
            refine inner.imp_right (And.imp_right ?_)
            rintro (⟨low, inside, head, _⟩ | ⟨_, none⟩)
            · simp only at inside head
              refine .inl ⟨low, by simp only; omega, by rw [cut]; exact head, ?_⟩
              exact fun marked => absurd trim marked
            · exact absurd none id

/-- All points of a part that is joined are inner ones, unless the first part has none. -/
theorem inners_joined {parts : List Linepart} {part : Linepart} (some_ : lastTip parts ≠ .bare)
    (cut : part.cut = 0) (room : (lastTip parts).Room part.raw.toNat part.usr.toNat) {i : Nat}
    (inside : i < part.usr.toNat) : Inners (addPart parts part) (lengthRaw parts + i) := by
  rcases List.eq_nil_or_concat parts with rfl | ⟨init, last, rfl⟩
  · exact absurd room id
  · have at_last : lastTip (init.concat last) = last.tip := by simp [lastTip]
    rw [at_last] at some_ room
    obtain ⟨both, joined, _⟩ := join_room cut room
    obtain ⟨raw, usr, cut', trim, same, trim', _⟩ := join_cases joined
    unfold addPart
    simp only [List.concat_eq_append, List.getLast?_append, List.getLast?_singleton,
      Option.some_or, List.dropLast_concat, joined, inners_append, lengthRaw_append]
    have total : lengthRaw [last] = last.raw.toNat := by simp [lengthRaw]
    rw [total]
    refine .inr ⟨by omega, .inl ⟨Nat.zero_le _, ?_, ?_, fun marked => absurd trim marked⟩⟩
    · simp only
      rw [usr, same]
      omega
    · intro marked
      simp only at marked ⊢
      rw [cut'] at marked
      have points : last.raw ≠ 0 := by
        intro none
        rw [tip_open same trim', if_pos ⟨none, marked⟩] at some_
        exact some_ rfl
      have := toNat_ne.mp points
      omega

theorem inners_added {parts : List Linepart} {part : Linepart} (some_ : lastTip parts ≠ .bare)
    {i : Nat} (inner : InnerPoint i (0, part)) :
    Inners (addPart parts part) (lengthRaw parts + i) := by
  have inside : i < part.usr.toNat := by
    have := inner.2.1
    simp only at this
    omega
  by_cases join : part.cut = 0 ∧ (lastTip parts).Room part.raw.toNat part.usr.toNat
  · exact inners_joined some_ join.1 join.2 inside
  · have adds : Adds parts part := adds_keeps fun cut room => absurd ⟨cut, room⟩ join
    rw [inners_addPart adds, Nat.add_sub_cancel_left]
    exact .inr ⟨Nat.le_add_right _ _, inner⟩

theorem lastTip_adds (parts pieces : List Linepart) :
    lastTip (pieces.foldl addPart parts) = pieces.foldl Tip.add (lastTip parts) := by
  induction pieces generalizing parts with
  | nil => rfl
  | cons piece pieces ih => rw [List.foldl_cons, ih, lastTip_add, List.foldl_cons]

theorem add_some {tip : Tip} {part : Linepart} (some_ : tip ≠ .bare)
    (plain : part.raw = 0 → part.cut = 0) : tip.add part ≠ .bare := by
  unfold Tip.add
  split
  · cases tip with
    | closed => exact some_
    | bare => exact absurd rfl some_
    | opened count =>
        unfold Tip.joined
        simp only
        split
        · simp
        · simp
  · unfold Linepart.tip
    split
    · split
      · next none => exact absurd (plain none.1) none.2
      · simp
    · simp

theorem adds_some {parts pieces : List Linepart} (some_ : lastTip parts ≠ .bare)
    (plain : ∀ piece ∈ pieces, piece.raw = 0 → piece.cut = 0) :
    lastTip (pieces.foldl addPart parts) ≠ .bare := by
  induction pieces generalizing parts with
  | nil => exact some_
  | cons piece pieces ih =>
      obtain ⟨first, others⟩ := List.forall_mem_cons.mp plain
      refine ih ?_ others
      rw [lastTip_add]
      exact add_some some_ first

theorem inners_pieces_added {parts pieces : List Linepart} (some_ : lastTip parts ≠ .bare)
    (plain : ∀ piece ∈ pieces, piece.raw = 0 → piece.cut = 0) {i : Nat}
    (inner : Inners pieces i) : Inners (pieces.foldl addPart parts) (lengthRaw parts + i) := by
  induction pieces generalizing parts i with
  | nil => exact absurd inner id
  | cons piece pieces ih =>
      obtain ⟨first, others⟩ := List.forall_mem_cons.mp plain
      rcases inner with here | ⟨le, behind⟩
      · rw [List.foldl_cons]
        exact inners_grow (inners_added some_ here)
      · have some' : lastTip (addPart parts piece) ≠ .bare := by
          rw [lastTip_add]
          exact add_some some_ first
        have there := ih some' others behind
        rwa [lengthRaw_addPart, Nat.add_assoc, Nat.add_sub_cancel' le] at there

/-- A part that shares no inner point with the ones behind it: it has no more points than raw
    values, or one more that it is trimmed at, and then the values do not end right before that
    one.  Without raw values it has no points and no cut. -/
structure Apart (old : Linepart) (olds : List Linepart) (len : Nat) : Prop where
  empty : old.raw = 0 → old.cut = 0 ∧ old.usr = 0
  shared : old.usr.toNat ≤ old.raw.toNat ∨ old.usr.toNat = old.raw.toNat + 1 ∧ old.trim ≠ 0 ∧
    ¬ Inners olds 0 ∧ len ≠ old.raw.toNat

/-- All parts do. -/
def ApartAll : List Linepart → (len : Nat) → Prop
  | [], _ => True
  | old :: olds, len => Apart old olds len ∧ ApartAll olds (len - old.raw.toNat)

theorem pieces_plain (tells : Tells tr dim ins dom) {old : Linepart} {val : List α}
    (empty : old.raw = 0 → old.cut = 0 ∧ old.usr = 0) :
    ∀ piece ∈ pieces tr dim old val, piece.raw = 0 → piece.cut = 0 := by
  fun_induction pieces tr dim old val with
  | case1 old val none =>
      intro piece mem
      rw [List.mem_singleton.mp mem]
      exact fun zero => (empty zero).1
  | case2 old val none old' pt less =>
      rename_i ih
      obtain ⟨le, usr', raw'⟩ := left_counts tells none
        (show cutPart tr dim (limited old val.length) val = pt from rfl) less
      have some_ : 1 ≤ pt.raw.toNat := cutPart_pos (not_or.mp none).1 (not_or.mp none).2
      have less' := UInt16.lt_iff_toNat_lt.mp less
      have raw_eq : (leftPart old' pt).raw.toNat = _ := raw'
      refine List.forall_mem_cons.mpr ⟨fun zero => absurd zero (toNat_ne.mpr (by omega)), ih ?_⟩
      exact fun zero => absurd zero (toNat_ne.mpr (by omega))
  | case3 old val none old' pt =>
      rename_i less
      intro piece mem zero
      have raw := @lastPart_raw (limited old val.length) pt
        (by rw [(limited_usr old val.length).2.1]; exact less)
      rw [(limited_usr old val.length).2.1] at raw
      have same : piece.raw = old.raw := by
        rw [List.mem_singleton.mp mem]
        exact raw
      rw [same] at zero
      exact absurd (empty zero).2 (not_or.mp none).1

/-- The first piece of an old part with values. -/
theorem pieces_first {old : Linepart} {val : List α} (some_ : ¬ (old.usr = 0 ∨ val = [])) :
    ∃ piece rest, pieces tr dim old val = piece :: rest ∧
      piece.raw.toNat = min old.raw.toNat (tr.part dim (val.take old.usr.toNat)).raw.toNat ∧
      piece.usr = (tr.part dim (val.take old.usr.toNat)).usr ∧
      (piece.cut = 0 ↔ (tr.part dim (val.take old.usr.toNat)).cut = 0 ∧ old.cut = 0) := by
  obtain ⟨raw, usr, _, cut⟩ := @cutPart_eq _ tr dim old val
  rw [pieces, dif_neg some_]
  simp only
  generalize cutPart tr dim (limited old val.length) val = pt at *
  by_cases less : pt.raw < old.raw
  · have less' := UInt16.lt_iff_toNat_lt.mp less
    rw [dif_pos less]
    exact ⟨pt, _, rfl, by rw [← raw]; omega, usr, cut⟩
  · have le := UInt16.le_iff_toNat_le.mp (UInt16.not_lt.mp less)
    rw [dif_neg less]
    obtain ⟨raw', usr', cut', _⟩ := @lastPart_eq (limited old val.length) pt
      (by rw [(limited_usr old val.length).2.1]; exact less)
    rw [(limited_usr old val.length).2.1] at raw'
    exact ⟨_, [], rfl, by rw [raw', ← raw]; omega, usr'.trans usr, by rw [cut', cut]⟩

/-- Where no point is seen behind the parts that is not to be, the next part loses nothing. -/
theorem follows_seen (tells : Tells tr dim ins dom) {parts rest : List Linepart} {old : Linepart}
    {olds : List Linepart} {val : List α} (known : dom (val.take old.usr.toNat))
    (apart : Apart old olds val.length) (some_ : lastTip parts ≠ .bare)
    (seen : ∀ i, Inners (rest.foldl addPart ((pieces tr dim old val).foldl addPart parts))
      (lengthRaw parts + i) → Inners (old :: olds) i ∧ Visible ins val i) :
    Meets ins old val ∧ Follows ins (lastTip parts) old val := by
  have plain := @pieces_plain _ tr dim ins dom tells old val apart.empty
  have bound := apart.shared
  have last (marked : old.trim ≠ 0) (points : old.usr ≠ 0) :
      ¬ Inners (old :: olds) (old.usr.toNat - 1) := by
    have size := toNat_ne.mp points
    rintro (⟨_, _, _, trim⟩ | ⟨le, behind⟩)
    · exact trim marked (by simp only; omega)
    · rcases bound with _ | ⟨one, _, alone, _⟩
      · omega
      · rw [show old.usr.toNat - 1 - old.raw.toNat = 0 by omega] at behind
        exact alone behind
  have none : val = [] → ∀ i, ¬ InnerPoint i (0, old) := by
    rintro rfl i inner
    have single : pieces tr dim old [] = [old] := by
      rw [pieces, dif_pos (.inr rfl)]
    rw [single] at seen
    have there := (seen i (inners_grow (inners_added some_ inner))).2
    exact absurd (visible_lt there) (Nat.not_lt_zero i)
  have splits : Splits ins old val := ⟨by omega, none, fun _ _ _ _ => by omega⟩
  refine ⟨⟨none, ?_, fun _ _ _ _ => by omega⟩, ?_, ?_⟩
  · rintro marked points early _ ⟨there, head⟩
    have size := toNat_ne.mp points
    have wanted : Inners (pieces tr dim old val) (old.usr.toNat - 1) :=
      (inners_pieces tells known splits _).mpr ⟨⟨by omega, head, fun _ _ => by omega⟩, there⟩
    exact last marked points
      (seen _ (inners_grow (inners_pieces_added some_ plain wanted))).1
  · intro cut empty room
    by_cases points : old.usr = 0
    · exact .inl points
    · have size := toNat_ne.mp points
      have nothing : val = [] := by
        rcases List.take_eq_nil_iff.mp empty with zero | nil
        · omega
        · exact nil
      subst nothing
      have single : pieces tr dim old [] = [old] := by
        rw [pieces, dif_pos (.inr rfl)]
      rw [single] at seen
      have inside : old.usr.toNat - 1 < old.usr.toNat := by omega
      have there := (seen _ (inners_grow (inners_joined some_ cut room inside))).2
      exact absurd (visible_lt there) (Nat.not_lt_zero _)
  · intro cut first room
    have view : val.take old.usr.toNat ≠ [] := by
      intro empty
      rw [empty] at first
      exact absurd (visible_lt first) (Nat.not_lt_zero 0)
    have values : ¬ (old.usr = 0 ∨ val = []) := by
      rintro (zero | rfl)
      · rw [zero] at view
        exact view rfl
      · exact view List.take_nil
    have points := (not_or.mp values).1
    have stretch := tells.stretch _ view (take_small old val)
    have marked := tells.marked _ known view (take_small old val)
    obtain ⟨piece, others, eq, raw, usr, cut'⟩ := @pieces_first _ tr dim old val values
    obtain ⟨count, untrimmed⟩ := marked.first stretch first
    rw [stretch.raw_line first, ← raw, ← count, ← usr] at room
    have uncut : piece.cut = 0 := by
      refine cut'.mpr ⟨?_, cut⟩
      by_contra marked_
      exact stretch.cut marked_ first
    have within := stretch.window 0 stretch.some_ first
    have inside : piece.usr.toNat - 1 < piece.usr.toNat := by
      rw [usr]
      omega
    rw [eq, List.foldl_cons] at seen
    obtain ⟨inner, there⟩ :=
      seen _ (inners_grow (inners_grow (inners_joined some_ uncut room inside)))
    rw [usr] at inner there
    have length : (val.take old.usr.toNat).length = min old.usr.toNat val.length := List.length_take
    have usr_le := stretch.usr_le
    have all : (val.take old.usr.toNat).all ins = true := by
      rw [← untrimmed]
      by_contra trimmed
      exact stretch.trim trimmed (visible_take.mpr ⟨by omega, there⟩)
    refine ⟨all, ?_, some_⟩
    by_contra trimmed
    simp only [not_or, Nat.not_lt] at trimmed
    have whole := (marked.whole (untrimmed.mpr all)).resolve_left (by omega)
    rw [show (tr.part dim (val.take old.usr.toNat)).usr.toNat - 1 = old.usr.toNat - 1 by omega]
      at inner
    exact last trimmed.1 points inner

/-- Where only points are seen that are to be, no part loses anything. -/
theorem followsAll_seen (tells : Tells tr dim ins dom) {parts olds : List Linepart}
    {val : List α} (known : WindowsAll dom olds val) (apart : ApartAll olds val.length)
    (some_ : lastTip parts ≠ .bare)
    (seen : ∀ i, Inners ((allPieces tr dim olds val).foldl addPart parts) (lengthRaw parts + i) →
      Inners olds i ∧ Visible ins val i) :
    MeetsAll ins olds val ∧ FollowsAll ins (lastTip parts) olds val := by
  induction olds generalizing parts val with
  | nil => exact ⟨trivial, trivial⟩
  | cons old olds ih =>
      obtain ⟨here, others⟩ := apart
      rw [← List.length_drop] at others
      simp only [allPieces, List.foldl_append] at seen
      obtain ⟨meets, follows⟩ := follows_seen tells known.1 here some_ seen
      have bound := here.shared
      have ends := (pieces_keep tells known.1 (by omega) follows).2
      have some' : lastTip ((pieces tr dim old val).foldl addPart parts) ≠ .bare :=
        adds_some some_ (pieces_plain tells here.empty)
      obtain ⟨meets', follows'⟩ := ih known.2 others some' (by
        intro i inner
        rw [lengthRaw_adds, lengthRaw_pieces, Nat.add_assoc] at inner
        obtain ⟨inner', there⟩ := seen _ inner
        rw [visible_drop]
        refine ⟨?_, there⟩
        rcases inner' with ⟨_, less, _, trim⟩ | ⟨_, behind⟩
        · simp only at less trim
          rcases bound with _ | ⟨_, marked, _, _⟩
          · omega
          · exact absurd (by omega) (trim marked)
        · rwa [Nat.add_sub_cancel_left] at behind)
      rw [lastTip_adds, ends] at follows'
      exact ⟨⟨meets, meets'⟩, ⟨follows, follows'⟩⟩

/-- `linepart::array::apply` ends, and keeps the sum of the parts if there are any. -/
theorem applyParts_ends {val : List α} {parts : List Linepart} (known : dim < tr.dimensions)
    (values : val ≠ []) : ∃ parts', applyParts tr dim val parts = some (parts', true) ∧
      (lengthRaw parts' = lengthRaw parts ↔ parts ≠ []) := by
  by_cases none : parts = []
  · subst none
    cases val with
    | nil => exact absurd rfl values
    | cons x val =>
        refine ⟨firstParts tr dim (x :: val).length (x :: val), ?_, ?_⟩
        · unfold applyParts
          rw [if_neg (by simp [known]), if_pos rfl]
        · have passed := tr.passes dim x val
          refine iff_of_false ?_ (not_not.mpr rfl)
          simp only [List.length_cons, firstParts, lengthRaw, List.map_cons, List.sum_cons,
            List.map_nil, List.sum_nil]
          omega
  · refine ⟨_, applyParts_eq known values none, iff_of_true ?_ none⟩
    rw [lengthRaw_adds, lengthRaw_allPieces]
    exact Nat.zero_add _

theorem applyParts_known {val : List α} {parts parts' : List Linepart}
    (run : applyParts tr dim val parts = some (parts', true)) :
    dim < tr.dimensions ∧ val ≠ [] := by
  by_contra none
  unfold applyParts at run
  rw [if_pos (by rw [not_and_or, not_not, Nat.not_lt] at none; exact none)] at run
  cases run

theorem applyParts_inners (tells : Tells tr dim ins dom) {val : List α}
    {parts parts' : List Linepart} (run : applyParts tr dim val parts = some (parts', true))
    (some_ : parts ≠ []) (windows : ∀ part ∈ parts, part.usr.toNat ≤ part.raw.toNat + 1)
    (known : WindowsAll dom parts val) (meets : MeetsAll ins parts val)
    (follows : FollowsAll ins .closed parts val) (i : Nat) :
    Inners parts' i ↔ Inners parts i ∧ Visible ins val i := by
  obtain ⟨dim_lt, values⟩ := applyParts_known run
  rw [applyParts_eq dim_lt values some_] at run
  cases run
  have adds : AddsAll [] (allPieces tr dim parts val) :=
    addsAll_keeps (allPieces_keep tells windows known follows)
  rw [inners_adds adds, ← inners_allPieces tells windows known meets]
  simp [Inners, lengthRaw]

theorem applyParts_seen (tells : Tells tr dim ins dom) {val : List α}
    {parts parts' : List Linepart} (run : applyParts tr dim val parts = some (parts', true))
    (some_ : parts ≠ []) (apart : ApartAll parts val.length) (known : WindowsAll dom parts val)
    (seen : ∀ i, Inners parts' i ↔ Inners parts i ∧ Visible ins val i) :
    MeetsAll ins parts val ∧ FollowsAll ins .closed parts val := by
  obtain ⟨dim_lt, values⟩ := applyParts_known run
  rw [applyParts_eq dim_lt values some_] at run
  cases run
  refine @followsAll_seen _ tr dim ins dom tells [] parts val known apart (by decide) ?_
  intro i inner
  rw [show lengthRaw [] + i = i from Nat.zero_add i] at inner
  exact (seen i).mp inner

end

end Mpt.Plot
