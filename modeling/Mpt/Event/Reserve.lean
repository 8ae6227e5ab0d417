import Mpt.Event.Table

/-! # Reserving message ids

`mpt_command_reserve` moves the active commands to the front of their array and appends one
with a new id: the one after the highest, or the lowest that is free when this is above the
limit for the size of a message id.
-/

namespace Mpt.Event

/-- The highest id for messages with `n` bytes for it. -/
def idLimit : (n : Nat) → UInt64
  | 0 => 0
  | 1 => 0x7f
  | 2 => 0x7fff
  | 3 => 0x7fffff
  | 4 => 0x7fffffff
  | 5 => 0x7fffffffff
  | 6 => 0x7fffffffffff
  | 7 => 0x7fffffffffffff
  | _ => 0x7fffffffffffffff

/-- `while (++cmd < base + i)`: the next free position, or `i`, which is `left` ahead. -/
def nextFree (cmds : List Command) : (pos left : Nat) → Nat
  | pos, 0 => pos
  | pos, left + 1 =>
      match cmds[pos]? with
      | none => pos
      | some c => if c.cmd = 0 then pos else nextFree cmds (pos + 1) left

/-- The variables of the loop over the commands. -/
structure Compaction where
  cmds : List Command
  mid : UInt64
  cmd : Option Nat
  used : Nat

/-- One round of the loop, for the command at a position. -/
def Compaction.step (s : Compaction) (i : Nat) : Compaction :=
  match s.cmds[i]? with
  | none => s
  | some c =>
      let mid := if s.mid < c.id then c.id else s.mid
      if c.cmd = 0 then
        { s with mid := mid, cmd := some (s.cmd.getD i) }
      else
        match s.cmd with
        | none => { s with mid := mid, used := s.used + 1 }
        | some cmd =>
            -- move command entry
            let cmds := (s.cmds.set cmd c).set i { c with cmd := 0 }
            ⟨cmds, mid, some (nextFree cmds (cmd + 1) (i - (cmd + 1))), s.used + 1⟩

/-- The loop over the commands. -/
def compaction (cmds : List Command) : Compaction :=
  (List.range cmds.length).foldl Compaction.step ⟨cmds, 0, none, 0⟩

/-- The search for a low id: the first free one of `left` ids. -/
def lowestFree (cmds : List Command) : (left : Nat) → (i : UInt64) → Option UInt64
  | 0, _ => none
  | left + 1, i => if (commandFind cmds i).isNone then some i else lowestFree cmds left (i + 1)

/-- The id for a new command. -/
def nextId (cmds : List Command) (mid max : UInt64) : Option UInt64 :=
  if max < mid + 1 then lowestFree cmds max.toNat 1 else some (mid + 1)

/-- The highest value of `size_t` -/
def sizeMax : Nat := 2 ^ 64 - 1

namespace Table

variable (env : Nat → Bool) (log_reply : Nat)

/-- `mpt_array_append` of one command to a raw buffer. -/
def appendRaw (t : Table) (s : Slots) (c : Command) : Table × Bool :=
  let used := s.cmds.length * commandSize
  if s.size - used < commandSize then
    if sizeMax - used < commandSize then
      (t, false)
    else
      match t.alloc env (used + commandSize) with
      | (t, none) => (t, false)
      | (t, some size) => ({ t with buf := some ⟨size, s.cmds ++ [c]⟩ }, true)
  else
    ({ t with buf := some { s with cmds := s.cmds ++ [c] } }, true)

/-- `mpt_command_reserve`: the position of the new command. -/
def reserve (t : Table) : (n : Nat) → Table × Option Nat
  | 0 => (t, none)
  | n + 1 =>
      match t.buf with
      | none =>
          match t.alloc env (8 * commandSize) with
          | (t, none) => (t, none)
          | (t, some size) =>
              ({ t with buf := some ⟨size, ⟨1, log_reply, 1⟩ :: List.replicate 7 ⟨0, 0, 0⟩⟩ }, some 0)
      | some s =>
          let loop := compaction s.cmds
          -- save used size
          let s := { s with cmds := loop.cmds.take loop.used }
          let t := { t with buf := some s }
          match nextId s.cmds loop.mid (idLimit (n + 1)) with
          | none => (t, none)
          | some mid =>
              match t.appendRaw env s ⟨mid, log_reply, mid.toNat⟩ with
              | (t, false) => (t, none)
              | (t, true) => (t, some s.cmds.length)

/-- The handler of a command is set, or the command deactivated when this is the null pointer. -/
def assign (t : Table) (pos cmd arg : Nat) : Table :=
  match t.buf with
  | none => t
  | some s =>
      match s.cmds[pos]? with
      | none => t
      | some c => { t with buf := some { s with cmds := s.cmds.set pos ⟨c.id, cmd, arg⟩ } }

end Table

/-- What is done with a command array. -/
inductive ReserveInput where
  | reserve (n : Nat)
  | assign (pos cmd arg : Nat)

/-- Reservations, and handlers that are set or removed. -/
def reserving (env : Nat → Bool) (log_reply : Nat) : Machine Table ReserveInput (Option Nat) where
  step t
    | .reserve n => t.reserve env log_reply n
    | .assign pos cmd arg => (t.assign pos cmd arg, none)

/-! ## The active commands are moved to the front -/

/-- The commands that are active. -/
def active (cmds : List Command) : List Command := cmds.filter fun c => c.cmd ≠ 0

/-- The loop after some of the commands: behind the active ones are free positions, then the
    commands that are left. -/
structure Compacted (seen rest : List Command) (s : Compaction) (free : List Command) : Prop where
  cmds : s.cmds = active seen ++ free ++ rest
  size : (active seen).length + free.length = seen.length
  unused : ∀ c ∈ free, c.cmd = 0
  used : s.used = (active seen).length
  cmd : s.cmd = if free = [] then none else some (active seen).length
  highest : ∀ c ∈ seen, c.id ≤ s.mid
  mid : s.mid = 0 ∨ ∃ c ∈ seen, c.id = s.mid

theorem nextFree_unused (acts rest : List Command) {free : List Command}
    (unused : ∀ c ∈ free, c.cmd = 0) (left : Nat) (size : left ≤ free.length) : nextFree (acts ++ free ++ rest) acts.length left = acts.length := by
  cases left with
  | zero => rfl
  | succ left =>
      cases free with
      | nil => cases size
      | cons c free =>
          have here : (acts ++ (c :: free) ++ rest)[acts.length]? = some c := by simp
          simp only [nextFree, here, unused c List.mem_cons_self, if_true]

/-- The highest id after one more command. -/
theorem highest_step {seen : List Command} {mid : UInt64} (c : Command)
    (highest : ∀ c ∈ seen, c.id ≤ mid) (top : mid = 0 ∨ ∃ c ∈ seen, c.id = mid) :
    (∀ d ∈ seen ++ [c], d.id ≤ if mid < c.id then c.id else mid) ∧
      ((if mid < c.id then c.id else mid) = 0 ∨
        ∃ d ∈ seen ++ [c], d.id = if mid < c.id then c.id else mid) := by
  by_cases above : mid < c.id
  · rw [if_pos above]
    refine ⟨?_, .inr ⟨c, by simp, rfl⟩⟩
    intro d mem
    rw [List.mem_append, List.mem_singleton] at mem
    obtain old | rfl := mem
    · exact UInt64.le_trans (highest d old) (UInt64.le_of_lt above)
    · exact UInt64.le_refl _
  · rw [if_neg above]
    constructor
    · intro d mem
      rw [List.mem_append, List.mem_singleton] at mem
      obtain old | rfl := mem
      · exact highest d old
      · exact UInt64.not_lt.mp above
    · refine top.imp_right ?_
      rintro ⟨d, mem, same⟩
      exact ⟨d, List.mem_append_left _ mem, same⟩

/-- One round. -/
theorem Compacted.step {seen rest : List Command} {s : Compaction} {free : List Command}
    {c : Command} (inv : Compacted seen (c :: rest) s free) :
    ∃ free', Compacted (seen ++ [c]) rest (s.step seen.length) free' := by
  obtain ⟨cmds, mid, cmd, used⟩ := s
  obtain ⟨parts, size, unused, count, position, highest, top⟩ := inv
  simp only at parts count position highest top
  subst parts count position
  obtain ⟨highest, top⟩ := highest_step c highest top
  have here : (active seen ++ free ++ c :: rest)[seen.length]? = some c := by
    rw [← size, ← List.length_append, List.getElem?_append_right (Nat.le_refl _), Nat.sub_self]
    rfl
  simp only [Compaction.step, here]
  by_cases inactive : c.cmd = 0
  · have acts : active (seen ++ [c]) = active seen := by simp [active, inactive]
    refine ⟨free ++ [c], ?_⟩
    simp only [inactive, if_true]
    constructor
    · simp [acts]
    · simp only [acts, List.length_append, List.length_singleton]
      omega
    · intro d mem
      rw [List.mem_append, List.mem_singleton] at mem
      obtain old | rfl := mem
      · exact unused d old
      · exact inactive
    · rw [acts]
    · by_cases none : free = []
      · subst none
        simp only [List.length_nil, Nat.add_zero] at size
        simp [acts, size]
      · simp [acts, none]
    · exact highest
    · exact top
  · have acts : active (seen ++ [c]) = active seen ++ [c] := by simp [active, inactive]
    simp only [inactive, if_false]
    cases free with
    | nil =>
        simp only [List.length_nil, Nat.add_zero] at size
        refine ⟨[], ?_⟩
        simp only [if_true]
        constructor
        · simp [acts]
        · simp [acts, size]
        · intro d mem
          cases mem
        · simp [acts]
        · rfl
        · exact highest
        · exact top
    | cons gap free =>
        -- the command moves to the first free position, and its own becomes the last
        have moved : ((active seen ++ gap :: free ++ c :: rest).set (active seen).length c).set
            seen.length { c with cmd := 0 } =
              (active seen ++ [c]) ++ (free ++ [{ c with cmd := 0 }]) ++ rest := by
          rw [List.append_assoc, List.cons_append, set_divided, ← size]
          have before : (active seen).length + (gap :: free).length =
              (active seen ++ c :: free).length := by simp
          rw [before, ← List.cons_append, ← List.append_assoc, set_divided]
          simp
        have still : ∀ d ∈ free ++ [{ c with cmd := 0 }], d.cmd = 0 := by
          intro d mem
          rw [List.mem_append, List.mem_singleton] at mem
          obtain old | rfl := mem
          · exact unused d (List.mem_cons_of_mem _ old)
          · rfl
        have next : nextFree ((active seen ++ [c]) ++ (free ++ [{ c with cmd := 0 }]) ++ rest)
            ((active seen).length + 1) (seen.length - ((active seen).length + 1)) =
              (active seen).length + 1 := by
          have := nextFree_unused (active seen ++ [c]) rest still
            (seen.length - ((active seen).length + 1)) (by
              simp only [List.length_append, List.length_cons] at size ⊢
              omega)
          simpa only [List.length_append, List.length_singleton] using this
        refine ⟨free ++ [{ c with cmd := 0 }], ?_⟩
        simp only [reduceCtorEq, if_false, moved, next]
        constructor
        · simp only [acts]
        · simp only [acts, List.length_append, List.length_cons, List.length_nil] at size ⊢
          omega
        · exact still
        · simp only [acts, List.length_append, List.length_singleton]
        · simp [acts]
        · exact highest
        · exact top

/-- The loop. -/
theorem Compacted.loop {seen rest : List Command} {s : Compaction} {free : List Command}
    (inv : Compacted seen rest s free) :
    ∃ free', Compacted (seen ++ rest) []
      ((List.range' seen.length rest.length).foldl Compaction.step s) free' := by
  induction rest generalizing seen s free with
  | nil => exact ⟨free, by simpa using inv⟩
  | cons c rest ih =>
      obtain ⟨free', next⟩ := inv.step
      obtain ⟨free'', last⟩ := ih next
      refine ⟨free'', ?_⟩
      rw [List.length_cons, List.range'_succ, List.foldl_cons]
      simpa using last

/-- The active commands are in front, and the highest id is one of those before. -/
theorem compaction_spec (cmds : List Command) :
    (compaction cmds).cmds.take (compaction cmds).used = active cmds ∧
      (∀ c ∈ cmds, c.id ≤ (compaction cmds).mid) ∧
      ((compaction cmds).mid = 0 ∨ ∃ c ∈ cmds, c.id = (compaction cmds).mid) := by
  have start : Compacted [] cmds ⟨cmds, 0, none, 0⟩ [] := by
    constructor
    · rfl
    · rfl
    · intro c mem
      cases mem
    · rfl
    · rfl
    · intro c mem
      cases mem
    · exact .inl rfl
  obtain ⟨free, inv⟩ := start.loop
  rw [List.nil_append, List.length_nil, ← List.range_eq_range'] at inv
  obtain ⟨parts, _, _, used, _, highest, top⟩ := inv
  refine ⟨?_, highest, top⟩
  unfold compaction
  rw [parts, used, List.append_nil, List.take_left]

/-! ## The new id -/

theorem find_some {cmds : List Command} {id : UInt64} (found : commandFind cmds id ≠ none) :
    ¬ Absent cmds id := by
  intro absent
  apply found
  apply List.findIdx?_eq_none_iff.mpr
  intro c mem
  simp only [decide_eq_false_iff_not, not_and]
  exact fun used same => absent c mem used same.symm

/-- The search for a low id. -/
theorem lowestFree_spec (cmds : List Command) (left : Nat) (i : UInt64)
    (room : i.toNat + left ≤ 2 ^ 64) :
    match lowestFree cmds left i with
    | some id => i ≤ id ∧ id.toNat < i.toNat + left ∧ Absent cmds id
    | none => ∀ id : UInt64, i ≤ id → id.toNat < i.toNat + left → ¬ Absent cmds id := by
  induction left generalizing i with
  | zero =>
      intro id above below
      rw [UInt64.le_iff_toNat_le] at above
      omega
  | succ left ih =>
      unfold lowestFree
      cases found : commandFind cmds i with
      | none =>
          simp only [Option.isNone_none, if_true]
          exact ⟨UInt64.le_refl _, by omega, find_none found⟩
      | some pos =>
          simp only [Option.isNone_some, Bool.false_eq_true, if_false]
          have here : ¬ Absent cmds i := find_some (by rw [found]; exact Option.some_ne_none pos)
          cases left with
          | zero =>
              intro id above below
              rw [UInt64.le_iff_toNat_le] at above
              have same : id = i := UInt64.toNat_inj.mp (by omega)
              rw [same]
              exact here
          | succ left =>
              have next : (i + 1).toNat = i.toNat + 1 := by
                rw [UInt64.toNat_add]
                simp only [UInt64.toNat_one]
                omega
              have rest := ih (i + 1) (by omega)
              revert rest
              cases lowestFree cmds (left + 1) (i + 1) with
              | none =>
                  intro rest id above below
                  rw [UInt64.le_iff_toNat_le] at above
                  by_cases first : id.toNat = i.toNat
                  · rw [UInt64.toNat_inj.mp first]
                    exact here
                  · apply rest id
                    · rw [UInt64.le_iff_toNat_le]
                      omega
                    · omega
              | some id =>
                  rintro ⟨above, below, absent⟩
                  rw [UInt64.le_iff_toNat_le] at above
                  exact ⟨UInt64.le_iff_toNat_le.mpr (by omega), by omega, absent⟩

/-- Every id up to the limit is that of an active command. -/
def AllUsed (cmds : List Command) (max : UInt64) : Prop :=
  ∀ id : UInt64, 1 ≤ id → id ≤ max → ¬ Absent cmds id

theorem nextId_spec {cmds : List Command} {mid : UInt64} (max : UInt64) (small : mid.toNat < 2 ^ 63)
    (above : ∀ c ∈ cmds, c.id ≤ mid) :
    match nextId cmds mid max with
    | some id => 1 ≤ id ∧ id ≤ max ∧ Absent cmds id
    | none => AllUsed cmds max := by
  unfold nextId
  have next : (mid + 1).toNat = mid.toNat + 1 := by
    rw [UInt64.toNat_add]
    simp only [UInt64.toNat_one]
    omega
  by_cases exhausted : max < mid + 1
  · rw [if_pos exhausted]
    have limit := UInt64.toNat_lt max
    have search := lowestFree_spec cmds max.toNat 1 (by
      simp only [UInt64.toNat_one]
      omega)
    revert search
    cases lowestFree cmds max.toNat 1 with
    | none =>
        intro rest id first last
        rw [UInt64.le_iff_toNat_le] at last
        exact rest id first (by simp only [UInt64.toNat_one]; omega)
    | some id =>
        rintro ⟨first, below, absent⟩
        simp only [UInt64.toNat_one] at below
        exact ⟨first, UInt64.le_iff_toNat_le.mpr (by omega), absent⟩
  · rw [if_neg exhausted]
    refine ⟨?_, UInt64.not_lt.mp exhausted, ?_⟩
    · rw [UInt64.le_iff_toNat_le, next, UInt64.toNat_one]
      omega
    · intro c mem _ same
      have below := above c mem
      rw [UInt64.le_iff_toNat_le, same, next] at below
      omega

/-! ## Any sequence of reservations -/

/-- The ids are not above the highest limit. -/
def SmallIds (t : Table) : Prop := ∀ c ∈ t.cmds, c.id.toNat < 2 ^ 63

theorem idLimit_small (n : Nat) : (idLimit n).toNat < 2 ^ 63 := by
  unfold idLimit
  split <;> decide

/-- There is no memory for one more command. -/
def NoMemory (env : Nat → Bool) (t : Table) : Prop :=
  env t.mallocs = false ∨ sizeMax < ((entries t.cmds).length + 1) * commandSize

/-- What a reservation does with the commands. -/
inductive Reserves (env : Nat → Bool) (log_reply : Nat) (t : Table) (max : UInt64) :
    Table × Option Nat → Prop where
  | unique (t' : Table) (pos : Nat) (id : UInt64) (first : 1 ≤ id) (last : id ≤ max)
      (free : Absent t.cmds id) (here : t'.cmds[pos]? = some ⟨id, log_reply, id.toNat⟩)
      (others : entries t'.cmds = entries t.cmds ++ entry id log_reply id.toNat) :
      Reserves env log_reply t max (t', some pos)
  | failed (t' : Table) (others : entries t'.cmds = entries t.cmds)
      (reason : AllUsed t.cmds max ∨ NoMemory env t) : Reserves env log_reply t max (t', none)

theorem entries_active (cmds : List Command) : entries (active cmds) = entries cmds := by
  simp [entries, active]

theorem length_active (cmds : List Command) : (active cmds).length = (entries cmds).length := by
  simp [entries, active]

theorem absent_active {cmds : List Command} {id : UInt64} :
    Absent (active cmds) id ↔ Absent cmds id := by
  simp only [Absent, active, List.mem_filter, decide_eq_true_eq, and_imp]
  exact ⟨fun absent c mem used => absent c mem used used, fun absent c mem used _ => absent c mem used⟩

/-- One command is appended, or there is no memory. -/
theorem appendRaw_cases (env : Nat → Bool) (t : Table) (s : Slots) (c : Command) :
    (∃ t', t.appendRaw env s c = (t', true) ∧ t'.cmds = s.cmds ++ [c]) ∨
      ∃ t', t.appendRaw env s c = (t', false) ∧ t'.buf = t.buf ∧
        (env t.mallocs = false ∨ sizeMax < (s.cmds.length + 1) * commandSize) := by
  unfold Table.appendRaw
  simp only
  split
  · split
    · refine .inr ⟨t, rfl, rfl, .inr ?_⟩
      rw [Nat.add_mul, Nat.one_mul]
      omega
    · simp only [Table.alloc]
      cases env t.mallocs with
      | false => exact .inr ⟨_, rfl, rfl, .inl rfl⟩
      | true => exact .inl ⟨_, rfl, rfl⟩
  · exact .inl ⟨_, rfl, rfl⟩

variable {env : Nat → Bool} {log_reply : Nat} {t : Table}

/-- A reservation. -/
theorem reserve_spec (small : SmallIds t) (n : Nat) :
    Reserves env log_reply t (idLimit n) (t.reserve env log_reply n) ∧
      SmallIds (t.reserve env log_reply n).1 := by
  cases n with
  | zero =>
      refine ⟨.failed t rfl (.inl ?_), small⟩
      intro id first last
      rw [UInt64.le_iff_toNat_le, UInt64.toNat_one] at first
      rw [UInt64.le_iff_toNat_le] at last
      have none : (idLimit 0).toNat = 0 := rfl
      omega
  | succ n =>
      unfold Table.reserve
      cases buf : t.buf with
      | none =>
          have empty : t.cmds = [] := by simp [Table.cmds, buf]
          simp only [Table.alloc]
          cases memory : env t.mallocs with
          | false => exact ⟨.failed _ rfl (.inr (.inl memory)), small⟩
          | true =>
              simp only [if_true]
              constructor
              · refine .unique _ 0 1 (UInt64.le_refl 1) ?_ ?_ rfl ?_
                · unfold idLimit
                  split <;> first | contradiction | decide
                · rw [empty]
                  intro c mem
                  cases mem
                · rw [empty]
                  simp [Table.cmds, entries_cons, entry]
              · intro c mem
                simp only [Table.cmds, List.mem_cons, List.mem_replicate] at mem
                obtain rfl | ⟨_, rfl⟩ := mem
                · exact Nat.one_lt_two_pow (by decide)
                · exact Nat.two_pow_pos 63
      | some s =>
          have cmds : t.cmds = s.cmds := by simp [Table.cmds, buf]
          obtain ⟨moved, highest, top⟩ := compaction_spec s.cmds
          have limit : (compaction s.cmds).mid.toNat < 2 ^ 63 := by
            obtain zero | ⟨c, mem, same⟩ := top
            · rw [zero]
              decide
            · rw [← same]
              exact small c (by rwa [cmds])
          simp only [moved]
          have id := nextId_spec (idLimit (n + 1)) limit
            fun c (mem : c ∈ active s.cmds) => highest c (List.mem_of_mem_filter mem)
          have kept : SmallIds { t with buf := some { s with cmds := active s.cmds } } := by
            intro c mem
            exact small c (by rw [cmds]; exact List.mem_of_mem_filter mem)
          revert id
          cases nextId (active s.cmds) (compaction s.cmds).mid (idLimit (n + 1)) with
          | none =>
              intro all
              refine ⟨.failed _ ?_ (.inl ?_), kept⟩
              · rw [cmds]
                exact entries_active s.cmds
              · rw [cmds]
                intro id first last
                rw [← absent_active]
                exact all id first last
          | some id =>
              rintro ⟨first, last, absent⟩
              rw [absent_active] at absent
              simp only
              obtain ⟨t', done, after⟩ | ⟨t', failed, same, memory⟩ := appendRaw_cases env
                { t with buf := some { s with cmds := active s.cmds } }
                { s with cmds := active s.cmds } ⟨id, log_reply, id.toNat⟩
              · simp only [done]
                simp only at after
                constructor
                · refine .unique t' _ id first last (by rwa [cmds]) ?_ ?_
                  · rw [after, List.getElem?_append_right (Nat.le_refl _), Nat.sub_self]
                    rfl
                  · rw [after, cmds, entries_append, entries_active, entries_cons]
                    simp
                · intro c mem
                  rw [after, List.mem_append, List.mem_singleton] at mem
                  obtain old | rfl := mem
                  · exact kept c old
                  · rw [UInt64.le_iff_toNat_le] at last
                    exact Nat.lt_of_le_of_lt last (idLimit_small (n + 1))
              · simp only [failed]
                have still : t'.cmds = active s.cmds := by simp [Table.cmds, same]
                constructor
                · refine .failed t' ?_ (.inr ?_)
                  · rw [still, cmds, entries_active]
                  · unfold NoMemory
                    rw [cmds, ← length_active]
                    exact memory
                · intro c mem
                  exact kept c (by rwa [still] at mem)

theorem assign_small (small : SmallIds t) (pos cmd arg : Nat) : SmallIds (t.assign pos cmd arg) := by
  unfold Table.assign
  cases buf : t.buf with
  | none => exact small
  | some s =>
      have cmds : t.cmds = s.cmds := by simp [Table.cmds, buf]
      simp only
      cases found : s.cmds[pos]? with
      | none => exact small
      | some c =>
          intro d mem
          obtain old | rfl := List.mem_or_eq_of_mem_set mem
          · exact small d (by rwa [cmds])
          · exact small c (by rw [cmds]; exact List.mem_of_getElem? found)

/-- In every run, a reservation gives an id that no active command has, and leaves the active
    commands as they are; it fails only when all ids are in use or there is no memory. -/
theorem reserve_unique (env : Nat → Bool) (log_reply : Nat) (inputs : List ReserveInput) (n : Nat) :
    Reserves env log_reply ((reserving env log_reply).after .init inputs) (idLimit n)
      (((reserving env log_reply).after .init inputs).reserve env log_reply n) := by
  have small : SmallIds ((reserving env log_reply).after .init inputs) := by
    apply Machine.invariant_always (P := SmallIds)
    · intro t input small
      cases input with
      | reserve n => exact (reserve_spec small n).2
      | assign pos cmd arg => exact assign_small small pos cmd arg
    · intro c mem
      cases mem
  exact (reserve_spec small n).1

end Mpt.Event
