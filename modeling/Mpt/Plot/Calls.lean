import Mpt.Plot.Polyline

/-! # What the calls for a polyline do

A call that stays inside of its store and of the points reads no other value and changes no other
point.
-/

namespace Mpt.Plot

variable {K : Type u} [Field K] {src : List K} {scale : Point K} {pos : Nat} {dest : Nat → Point K}
  {pt : Linepart} {v : ValueApply K} {log10 : K → K}

theorem addValues_isSome {n j : Nat} :
    (addValues src scale pos n j dest).isSome ↔ (0 < n → j + n ≤ src.length) := by
  induction n generalizing j dest with
  | zero => simp [addValues]
  | succ n ih =>
      unfold addValues
      by_cases inside : j < src.length
      · rw [getElem_getD inside, Option.bind_some, ih]
        omega
      · rw [List.getElem?_eq_none (Nat.le_of_not_lt inside)]
        simp only [Option.bind_none, Option.isSome_none, Bool.false_eq_true, false_iff]
        omega

theorem lastValues_isSome {usr : Nat} :
    (lastValues src usr).isSome ↔ 2 ≤ usr ∧ usr ≤ src.length := by
  obtain _ | _ | usr := usr
  · simp [lastValues]
  · simp [lastValues]
  · rw [lastValues]
    by_cases inside : usr + 1 < src.length
    · rw [getElem_getD inside, getElem_getD (Nat.lt_of_succ_lt inside)]
      simp only [Option.bind_some, Option.map_some, Option.isSome_some, true_iff]
      omega
    · rw [List.getElem?_eq_none (Nat.le_of_not_lt inside)]
      simp only [Option.map_none, Option.bind_fun_none, Option.isSome_none, Bool.false_eq_true,
        false_iff]
      omega

/-- Points behind those of the part stay as they are. -/
theorem addValues_behind {n j : Nat} {dest' : Nat → Point K}
    (done : addValues src scale pos n j dest = some dest') {i : Nat} (behind : pos + (j + n) ≤ i) :
    dest' i = dest i := by
  induction n generalizing j dest with
  | zero => cases done; rfl
  | succ n ih =>
      obtain ⟨value, _, rest⟩ := Option.bind_eq_some_iff.mp done
      rw [ih rest (by omega), changePoint, Function.update_of_ne (by omega)]

section
variable [CharZero K] [DecidableEq K]

theorem cutPoint_isSome : (cutPoint pt src scale pos dest).isSome ↔ (pt.cut ≠ 0 → 2 ≤ src.length) := by
  unfold cutPoint
  by_cases cut : pt.cut = 0
  · simp [linepartReal_eq_zero, cut]
  · simp only [linepartReal_eq_zero, cut, if_false, ne_eq, not_false_eq_true, true_implies]
    by_cases inside : 1 < src.length
    · rw [getElem_getD inside, getElem_getD (Nat.lt_of_succ_lt inside)]
      exact iff_of_true rfl inside
    · rw [List.getElem?_eq_none (Nat.le_of_not_lt inside)]
      simp only [Option.map_none, Option.bind_fun_none, Option.isSome_none, Bool.false_eq_true,
        false_iff]
      omega

theorem cutPoint_next {dest' : Nat → Point K} {j : Nat}
    (done : cutPoint pt src scale pos dest = some (dest', j)) :
    j = (if pt.cut ≠ 0 then 1 else 0) ∧ ∀ i, pos + 1 ≤ i → dest' i = dest i := by
  unfold cutPoint at done
  by_cases cut : pt.cut = 0
  · simp only [linepartReal_eq_zero, cut, if_true, Option.some.injEq, Prod.mk.injEq] at done
    obtain ⟨rfl, rfl⟩ := done
    simp [cut]
  · simp only [linepartReal_eq_zero, cut, if_false] at done
    obtain ⟨s1, _, done⟩ := Option.bind_eq_some_iff.mp done
    obtain ⟨s2, _, done⟩ := Option.map_eq_some_iff.mp done
    cases done
    refine ⟨by simp [cut], fun i behind => ?_⟩
    rw [changePoint, Function.update_of_ne (by omega)]

theorem trimPoint_isSome : (trimPoint pt src scale pos dest).isSome ↔
    (pt.trim ≠ 0 → 2 ≤ pt.usr.toNat ∧ pt.usr.toNat ≤ src.length) := by
  unfold trimPoint
  by_cases trim : pt.trim = 0
  · simp [linepartReal_eq_zero, trim]
  · simp only [linepartReal_eq_zero, trim, if_false, ne_eq, not_false_eq_true, true_implies,
      Option.isSome_map, lastValues_isSome]

theorem trimPoint_next {dest' : Nat → Point K} {len : Nat}
    (done : trimPoint pt src scale pos dest = some (dest', len)) :
    len = (if pt.trim ≠ 0 then pt.usr.toNat - 1 else pt.usr.toNat) ∧
      ∀ i, pos + pt.usr.toNat ≤ i → 0 < pt.usr.toNat → dest' i = dest i := by
  unfold trimPoint at done
  by_cases trim : pt.trim = 0
  · simp only [linepartReal_eq_zero, trim, if_true, Option.some.injEq, Prod.mk.injEq] at done
    obtain ⟨rfl, rfl⟩ := done
    simp [trim]
  · simp only [linepartReal_eq_zero, trim, if_false] at done
    obtain ⟨⟨s1, s2⟩, _, done⟩ := Option.map_eq_some_iff.mp done
    cases done
    refine ⟨by simp [trim], fun i behind some_ => ?_⟩
    rw [changePoint, Function.update_of_ne (by omega)]

/-- `apply` comes to an end exactly when the values that it reads are there. -/
theorem applyScaled_isSome (some_ : pt.usr ≠ 0) :
    (applyScaled pt src scale pos dest).isSome ↔ ∀ r ∈ pt.reads, 0 ≤ r ∧ r < src.length := by
  have inside := reads_inside some_ 0 src.length
  simp only [Nat.cast_zero, zero_add] at inside
  rw [inside]
  have positive := usr_pos some_
  unfold applyScaled Linepart.Short Linepart.extent
  simp only [ne_eq, linepartReal_eq_zero]
  by_cases cutShort : ¬ pt.cut = 0 ∧ pt.raw < 2
  · rw [if_pos cutShort]
    exact iff_of_true rfl (.inl ⟨.inl cutShort.1, cutShort.2⟩)
  rw [if_neg cutShort]
  have cutThere : (cutPoint pt src scale pos dest).isSome ↔ _ := cutPoint_isSome
  cases first : cutPoint pt src scale pos dest with
  | none =>
      rw [first] at cutThere
      simp only [Option.isSome_none, Bool.false_eq_true, false_iff, Classical.not_imp] at cutThere
      refine iff_of_false Bool.false_ne_true ?_
      simp only [cutThere.1, not_false_eq_true, if_true]
      rintro (short | ⟨_, enough⟩)
      · exact cutShort ⟨cutThere.1, short.2⟩
      · omega
  | some next =>
      obtain ⟨dest₁, j⟩ := next
      obtain ⟨start, -⟩ := cutPoint_next first
      rw [first, Option.isSome_some] at cutThere
      simp only [Option.bind_some]
      by_cases trimShort : ¬ pt.trim = 0 ∧ pt.raw < 2
      · rw [if_pos trimShort]
        exact iff_of_true rfl (.inl ⟨.inr trimShort.1, trimShort.2⟩)
      rw [if_neg trimShort]
      have long : ¬ ((¬ pt.cut = 0 ∨ ¬ pt.trim = 0) ∧ pt.raw < 2) := fun short =>
        short.1.elim (fun cut => cutShort ⟨cut, short.2⟩) fun trim => trimShort ⟨trim, short.2⟩
      rw [or_iff_right long]
      have trimThere : (trimPoint pt src scale pos dest₁).isSome ↔ _ := trimPoint_isSome
      cases last : trimPoint pt src scale pos dest₁ with
      | none =>
          rw [last] at trimThere
          simp only [Option.isSome_none, Bool.false_eq_true, false_iff, Classical.not_imp]
            at trimThere
          refine iff_of_false Bool.false_ne_true ?_
          rintro ⟨points, enough⟩
          have points := points trimThere.1
          split at enough <;> omega
      | some final =>
          obtain ⟨dest₂, len⟩ := final
          obtain ⟨stop, -⟩ := trimPoint_next last
          rw [last, Option.isSome_some] at trimThere
          simp only [true_iff] at cutThere trimThere
          rw [Option.bind_some, addValues_isSome, start, stop]
          by_cases cut : pt.cut = 0 <;> by_cases trim : pt.trim = 0
          all_goals
            simp only [ne_eq, cut, trim, not_true_eq_false, not_false_eq_true, if_true, if_false,
              false_implies, true_implies, true_and] at cutThere trimThere ⊢
            omega

/-- `apply` changes no point behind those of the part. -/
theorem applyScaled_behind (some_ : pt.usr ≠ 0) {dest' : Nat → Point K}
    (done : applyScaled pt src scale pos dest = some dest') {i : Nat}
    (behind : pos + pt.usr.toNat ≤ i) : dest' i = dest i := by
  have positive := usr_pos some_
  unfold applyScaled at done
  split at done
  · cases done
    rfl
  · obtain ⟨⟨dest₁, j⟩, first, done⟩ := Option.bind_eq_some_iff.mp done
    obtain ⟨start, kept⟩ := cutPoint_next first
    have kept := kept i (by omega)
    simp only at done
    split at done
    · cases done
      exact kept
    · obtain ⟨⟨dest₂, len⟩, last, done⟩ := Option.bind_eq_some_iff.mp done
      obtain ⟨stop, others⟩ := trimPoint_next last
      have inner : j + (len - j) ≤ pt.usr.toNat := by
        split at start <;> split at stop <;> omega
      simp only at done
      rw [addValues_behind done (by omega), others i behind positive, kept]

/-- With the offset, too. -/
theorem applyLinear_inside (v : ValueApply K) (pos : Nat) (some_ : pt.usr ≠ 0)
    (inside : ∀ r ∈ pt.reads, 0 ≤ r ∧ r < src.length) (dest : Nat → Point K) :
    ∃ dest', applyLinear pt src v pos dest = some dest' ∧
      ∀ i, i < pos ∨ pos + pt.usr.toNat ≤ i → dest' i = dest i := by
  have positive := usr_pos some_
  have ends : (applyLinear pt src v pos dest).isSome := (applyScaled_isSome some_).mpr inside
  obtain ⟨dest', done⟩ := Option.isSome_iff_exists.mp ends
  refine ⟨dest', done, ?_⟩
  rintro i (before | behind)
  · exact applyLinear_frame done before
  · rw [applyScaled_behind some_ done behind, addOffset_others _ _ (by omega)]

theorem piece_le (all : Linepart) : all.piece.usr.toNat ≤ all.usr.toNat := by
  unfold Linepart.piece
  split
  · next more => exact Nat.le_of_lt (UInt16.lt_iff_toNat_lt.mp more)
  · exact Nat.le_refl _

theorem applyLogLoop_inside (log10 : K → K) (v : ValueApply K) (fuel : Nat) (pt : Linepart)
    (src : List K) (pos : Nat) (dest : Nat → Point K) (enough : pt.usr.toNat ≤ src.length)
    (inside : ∀ piece ∈ pt.logPieces fuel, ∀ r ∈ piece.reads, 0 ≤ r ∧ r < piece.usr.toNat) :
    ∃ dest', applyLogLoop log10 v fuel pt src pos dest = some dest' ∧
      ∀ i, i < pos ∨ pos + pt.usr.toNat ≤ i → dest' i = dest i := by
  induction fuel generalizing pt src pos dest with
  | zero => exact ⟨dest, rfl, fun _ _ => rfl⟩
  | succ fuel ih =>
      unfold applyLogLoop
      by_cases none : pt.usr = 0
      · rw [if_pos none]
        exact ⟨dest, rfl, fun _ _ => rfl⟩
      · rw [if_neg none]
        simp only [Linepart.logPieces, if_neg none, List.mem_cons, forall_eq_or_imp] at inside
        have front : pt.piece ∈ pt.logPieces 1 := by simp [Linepart.logPieces, none]
        have some_ := logPieces_some front
        have less := piece_le pt
        have rest : (pt.rest pt.piece).usr.toNat = pt.usr.toNat - pt.piece.usr.toNat :=
          UInt16.toNat_sub_of_le _ _ (UInt16.le_iff_toNat_le.mpr less)
        have taken : ((src.take pt.piece.usr.toNat).map log10).length = pt.piece.usr.toNat := by
          rw [List.length_map, List.length_take]
          omega
        have here := inside.1
        rw [← taken] at here
        obtain ⟨dest₁, first, kept⟩ := applyLinear_inside v pos some_ here dest
        obtain ⟨dest₂, others, same⟩ := ih (pt.rest pt.piece) (src.drop pt.piece.usr.toNat)
          (pos + pt.piece.usr.toNat) dest₁ (by rw [List.length_drop, rest]; omega) inside.2
        refine ⟨dest₂, ?_, ?_⟩
        · simp only [logs_eq (show pt.piece.usr.toNat ≤ src.length by omega), Option.bind_some, first,
            others]
        · intro i outside
          rw [same i (by omega), kept i (by omega)]

variable {tr : Transform K} {parts : List Linepart} {stores : List (DataStore K)} {c : ApplyCall}
  {points : List K}

/-- A call that stays inside is one of the routine that reads nothing else, and it changes nothing
    but points that are reserved. -/
theorem ApplyCall.Inside.runs (inside : c.Inside tr parts stores)
    (found : stores[c.store]? = some (.values points)) (some_ : c.part.usr ≠ 0)
    (v : ValueApply K) (log10 : K → K) (dest : Nat → Point K) :
    (tr.routine c.dim = .linear →
      ∃ dest', applyLinear c.part (points.drop c.src) v c.dest dest = some dest' ∧
        ∀ i, i < c.dest ∨ lengthUser parts ≤ i → dest' i = dest i) ∧
    (tr.routine c.dim = .log →
      ∃ dest', applyLogLoop log10 v c.part.usr.toNat c.part (points.drop c.src) c.dest dest =
          some dest' ∧ ∀ i, i < c.dest ∨ lengthUser parts ≤ i → dest' i = dest i) := by
  obtain ⟨points', found', reads⟩ := inside.values
  rw [found] at found'
  cases found'
  have reserved := inside.points
  constructor
  · intro linear
    simp only [linear, ApplyCall.reads, some_, if_false] at reads
    have behind : ∀ r ∈ c.part.reads, 0 ≤ r ∧ r < (points.drop c.src).length := by
      intro r mem
      have := reads r mem
      rw [List.length_drop]
      omega
    obtain ⟨dest', done, same⟩ := applyLinear_inside v c.dest some_ behind dest
    exact ⟨dest', done, fun i outside => same i (by omega)⟩
  · intro log
    simp only [log, ApplyCall.reads, List.mem_map, List.mem_range] at reads
    have enough : c.part.usr.toNat ≤ (points.drop c.src).length := by
      have positive := usr_pos some_
      have := reads (c.part.usr.toNat - 1 : Nat) ⟨_, Nat.sub_lt positive Nat.one_pos, rfl⟩
      rw [List.length_drop]
      omega
    obtain ⟨dest', done, same⟩ := applyLogLoop_inside log10 v c.part.usr.toNat c.part
      (points.drop c.src) c.dest dest enough (inside.logs log)
    exact ⟨dest', done, fun i outside => same i (by omega)⟩

end

end Mpt.Plot
