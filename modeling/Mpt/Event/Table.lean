import Mpt.Event.Command
import Mpt.Run
import Mathlib.Data.List.Nodup

/-! # The command table is a partial map

`bound` is what the calls have registered for each id.  At any time the commands
registered are the ones terminated and the ones still in the table, each once.
-/

namespace Mpt.Event

/-- The active commands. -/
def entries (cmds : List Command) : List (UInt64 × Nat × Nat) :=
  (cmds.filter fun c => c.cmd ≠ 0).map fun c => (c.id, c.cmd, c.arg)

/-- What a command adds to the active ones. -/
def entry (id : UInt64) (cmd arg : Nat) : List (UInt64 × Nat × Nat) :=
  if cmd = 0 then [] else [(id, cmd, arg)]

@[simp] theorem entries_nil : entries [] = [] := rfl

theorem entries_cons (c : Command) (cmds : List Command) :
    entries (c :: cmds) = entry c.id c.cmd c.arg ++ entries cmds := by
  unfold entries entry
  by_cases unused : c.cmd = 0
  · simp [unused]
  · simp [unused]

@[simp] theorem entries_append (cmds cmds' : List Command) :
    entries (cmds ++ cmds') = entries cmds ++ entries cmds' := by
  simp [entries]

theorem mem_entries {cmds : List Command} {id : UInt64} {cmd arg : Nat} :
    (id, cmd, arg) ∈ entries cmds ↔ ∃ c ∈ cmds, c.cmd ≠ 0 ∧ c.id = id ∧ c.cmd = cmd ∧ c.arg = arg := by
  simp [entries, and_assoc]

/-- A position found in a list divides it. -/
theorem divide {cmds : List Command} {p : Command → Bool} {i : Nat}
    (found : cmds.findIdx? p = some i) :
    ∃ pre c post, cmds = pre ++ c :: post ∧ pre.length = i ∧ p c = true ∧ cmds[i]? = some c := by
  obtain ⟨inside, holds, _⟩ := List.findIdx?_eq_some_iff_getElem.mp found
  refine ⟨cmds.take i, cmds[i], cmds.drop (i + 1), ?_, ?_, holds, ?_⟩
  · rw [← List.drop_eq_getElem_cons inside, List.take_append_drop]
  · rw [List.length_take]
    omega
  · rw [List.getElem?_eq_getElem inside]

theorem set_divided (pre post : List Command) (c c' : Command) :
    (pre ++ c :: post).set pre.length c' = pre ++ c' :: post := by
  simp

/-- No active command has the id. -/
def Absent (cmds : List Command) (id : UInt64) : Prop := ∀ c ∈ cmds, c.cmd ≠ 0 → c.id ≠ id

theorem find_none {cmds : List Command} {id : UInt64} (none : commandFind cmds id = none) :
    Absent cmds id := by
  intro c mem used same
  have := List.findIdx?_eq_none_iff.mp none c mem
  simp [used, same] at this

/-- What a successful registration does to the table: it takes the place of the active
    command with the id, or of an unused slot, or a new one. -/
inductive Effect (id : UInt64) (cmd arg : Nat) (t t' : Table) : Prop where
  | replace (pre post : List Command) (c : Command) (before : t.cmds = pre ++ c :: post)
      (used : c.cmd ≠ 0) (same : c.id = id) (after : t'.cmds = pre ++ ⟨id, cmd, arg⟩ :: post)
      (calls : t'.calls = t.calls ++ [(c.cmd, c.arg)])
  | fill (pre post : List Command) (old : List Command) (before : t.cmds = pre ++ old ++ post)
      (unused : ∀ c ∈ old, c.cmd = 0) (absent : Absent t.cmds id)
      (after : t'.cmds = pre ++ ⟨id, cmd, arg⟩ :: post) (calls : t'.calls = t.calls)

variable {env : Nat → Bool} {t : Table} {id : UInt64}

theorem get_none (none : t.get id = none) : Absent t.cmds id := by
  unfold Table.get at none
  unfold Table.cmds
  cases buf : t.buf with
  | none => intro c mem; simp at mem
  | some s =>
      simp only [buf] at none ⊢
      by_cases empty : s.cmds.length = 0
      · rw [List.eq_nil_of_length_eq_zero empty]
        intro c mem
        simp at mem
      · rw [if_neg empty] at none
        exact find_none none

theorem get_some {pos : Nat} (found : t.get id = some pos) :
    ∃ s pre c post, t.buf = some s ∧ s.cmds = pre ++ c :: post ∧ pre.length = pos ∧ c.cmd ≠ 0 ∧
      c.id = id ∧ s.cmds[pos]? = some c := by
  unfold Table.get at found
  cases buf : t.buf with
  | none => simp [buf] at found
  | some s =>
      simp only [buf] at found
      by_cases empty : s.cmds.length = 0
      · simp [empty] at found
      · rw [if_neg empty] at found
        obtain ⟨pre, c, post, parts, size, holds, at_⟩ := divide found
        simp only [decide_eq_true_eq] at holds
        exact ⟨s, pre, c, post, rfl, parts, size, holds.1, holds.2.symm, at_⟩

theorem replace_effect {pos : Nat} (found : t.get id = some pos) (cmd arg : Nat) :
    Effect id cmd arg t (t.replace pos cmd arg) := by
  obtain ⟨s, pre, c, post, buf, parts, size, used, same, at_⟩ := get_some found
  refine .replace pre post c ?_ used same ?_ ?_
  · simp [Table.cmds, buf, parts]
  · subst size
    simp only [Table.replace, buf, at_, Table.cmds]
    rw [parts, set_divided, same]
  · simp [Table.replace, buf, at_]

theorem append_effect (env : Nat → Bool) {s : Slots} (buf : t.buf = some s) (absent : Absent t.cmds id)
    (cmd arg : Nat) :
    ((t.append env s ⟨id, cmd, arg⟩).2 = true ∧
        Effect id cmd arg t (t.append env s ⟨id, cmd, arg⟩).1) ∨
      ((t.append env s ⟨id, cmd, arg⟩).2 = false ∧
        (t.append env s ⟨id, cmd, arg⟩).1.cmds = t.cmds ∧
        (t.append env s ⟨id, cmd, arg⟩).1.calls = t.calls) := by
  have cmds : t.cmds = s.cmds := by simp [Table.cmds, buf]
  have stored : ∀ t' : Table, t'.cmds = s.cmds ++ [⟨id, cmd, arg⟩] → t'.calls = t.calls →
      Effect id cmd arg t t' := by
    intro t' after calls
    exact .fill s.cmds [] [] (by simp [cmds]) (by simp) absent after calls
  unfold Table.append
  simp only
  split
  · exact .inr ⟨rfl, rfl, rfl⟩
  · split
    · exact .inl ⟨rfl, stored _ rfl rfl⟩
    · simp only [Table.alloc]
      cases env t.mallocs with
      | false => exact .inr ⟨rfl, rfl, rfl⟩
      | true =>
          simp only [if_true]
          split
          · exact .inl ⟨rfl, stored _ rfl rfl⟩
          · exact .inr ⟨rfl, cmds.symm, rfl⟩

/-- `mpt_command_set` registers, or leaves the commands as they are. -/
theorem commandSet_effect (env : Nat → Bool) (t : Table) (id : UInt64) (cmd arg : Nat) :
    (∃ ret, (t.commandSet env id cmd arg).2 = .ok ret ∧
        Effect id cmd arg t (t.commandSet env id cmd arg).1) ∨
      (∃ e, (t.commandSet env id cmd arg).2 = .error e) ∧
        (t.commandSet env id cmd arg).1.cmds = t.cmds ∧
        (t.commandSet env id cmd arg).1.calls = t.calls := by
  unfold Table.commandSet
  cases found : t.get id with
  | some pos => exact .inl ⟨_, rfl, replace_effect found cmd arg⟩
  | none =>
      have absent := get_none found
      cases buf : t.buf with
      | none =>
          have empty : t.cmds = [] := by simp [Table.cmds, buf]
          simp only [Table.alloc]
          cases env t.mallocs with
          | false => exact .inr ⟨⟨_, rfl⟩, rfl, rfl⟩
          | true =>
              simp only [if_true]
              split
              · exact .inr ⟨⟨_, rfl⟩, empty.symm, rfl⟩
              · exact .inl ⟨_, rfl, .fill [] [] [] (by simp [empty]) (by simp) absent rfl rfl⟩
      | some s =>
          have cmds : t.cmds = s.cmds := by simp [Table.cmds, buf]
          simp only
          cases free : commandEmpty s.cmds with
          | some pos =>
              obtain ⟨pre, c, post, parts, size, unused, _⟩ := divide free
              subst size
              refine .inl ⟨_, rfl, .fill pre post [c] (by simp [cmds, parts]) ?_ absent ?_ rfl⟩
              · simpa using unused
              · simp only [Table.cmds]
                rw [parts, set_divided]
          | none =>
              simp only
              rcases append_effect env buf absent cmd arg with ⟨ok, effect⟩ | ⟨failed, same⟩
              · revert ok effect
                generalize t.append env s ⟨id, cmd, arg⟩ = r
                rintro ok effect
                obtain ⟨t', done⟩ := r
                simp only at ok
                subst ok
                exact .inl ⟨_, rfl, effect⟩
              · revert failed same
                generalize t.append env s ⟨id, cmd, arg⟩ = r
                rintro failed same
                obtain ⟨t', done⟩ := r
                simp only at failed
                subst failed
                exact .inr ⟨⟨_, rfl⟩, same⟩

inductive Op where
  | dispatchSet (id : UInt64) (cmd arg : Nat)
  | commandSet (id : UInt64) (cmd arg : Nat)
  deriving Repr, DecidableEq

/-- The table, the pair that the calls have last registered for each id and not
    cleared, and all pairs registered. -/
structure Session where
  table : Table
  bound : UInt64 → Option (Nat × Nat)
  registered : List (Nat × Nat)

def Session.start : Session := ⟨.init, fun _ => none, []⟩

/-- A call that succeeds registers the pair for the id, or clears the id. -/
def Session.note (s : Session) (id : UInt64) (cmd arg : Nat) :
    Table × Except Error Nat → Session
  | (t, .error _) => { s with table := t }
  | (t, .ok _) =>
      ⟨t, Function.update s.bound id (if cmd = 0 then none else some (cmd, arg)),
        s.registered ++ (entry id cmd arg).map Prod.snd⟩

def step (env : Nat → Bool) (s : Session) : Op → Session × Except Error Nat
  | .dispatchSet id cmd arg =>
      let r := s.table.dispatchSet env id cmd arg
      (s.note id cmd arg r, r.2)
  | .commandSet id cmd arg =>
      let r := s.table.commandSet env id cmd arg
      (s.note id cmd arg r, r.2)

def machine (env : Nat → Bool) : Machine Session Op (Except Error Nat) where
  step := step env

/-- What `mpt_command_get` finds for an id. -/
def Table.found (t : Table) (id : UInt64) : Option (Nat × Nat) :=
  ((t.get id).bind fun pos => t.cmds[pos]?).map fun c => (c.cmd, c.arg)

/-- The table holds one entry for each id that is registered, and every pair
    registered is either terminated or still there. -/
structure Sound (s : Session) : Prop where
  unique : ((entries s.table.cmds).map Prod.fst).Nodup
  bound : ∀ id x, s.bound id = some x ↔ (id, x) ∈ entries s.table.cmds
  ledger : (s.table.calls ++ (entries s.table.cmds).map Prod.snd).Perm s.registered

theorem sound_start : Sound .start where
  unique := List.nodup_nil
  bound := by simp [Session.start, Table.init, Table.cmds]
  ledger := List.Perm.refl _

theorem absent_fst {cmds : List Command} (absent : Absent cmds id) :
    id ∉ (entries cmds).map Prod.fst := by
  intro mem
  obtain ⟨⟨id', cmd, arg⟩, mem, same⟩ := List.mem_map.mp mem
  obtain ⟨c, mem, used, eq, _⟩ := mem_entries.mp mem
  exact absent c mem used (eq.trans same)

/-- The active entries after the call, with those of the id exchanged. -/
theorem sound_exchange {s : Session} (h : Sound s) {t' : Table} {cmd arg : Nat}
    {pre old post : List (UInt64 × Nat × Nat)}
    (before : entries s.table.cmds = pre ++ old ++ post)
    (after : entries t'.cmds = pre ++ entry id cmd arg ++ post)
    (same : ∀ e ∈ old, e.1 = id) (absent : id ∉ (pre ++ post).map Prod.fst)
    (calls : t'.calls = s.table.calls ++ old.map Prod.snd) (ret : Nat) :
    Sound (s.note id cmd arg (t', .ok ret)) := by
  obtain ⟨unique, bound, ledger⟩ := h
  rw [before] at unique ledger
  have others : ((pre ++ post).map Prod.fst).Nodup := by
    refine unique.sublist (List.Sublist.map _ ?_)
    simp only [List.append_assoc]
    exact (List.Sublist.refl pre).append (List.sublist_append_right _ _)
  refine ⟨?_, ?_, ?_⟩
  · simp only [Session.note, after]
    unfold entry
    split
    · simpa using others
    · simp only [List.append_assoc, List.singleton_append, List.map_append, List.map_cons,
        List.nodup_middle]
      rw [List.nodup_cons, ← List.map_append]
      exact ⟨absent, others⟩
  · intro id' x
    simp only [Session.note, after]
    by_cases this : id' = id
    · subst this
      have notPre : (id', x) ∉ pre := fun mem =>
        absent (List.mem_map.mpr ⟨_, List.mem_append_left _ mem, rfl⟩)
      have notPost : (id', x) ∉ post := fun mem =>
        absent (List.mem_map.mpr ⟨_, List.mem_append_right _ mem, rfl⟩)
      rw [Function.update_self]
      simp only [List.mem_append, notPre, notPost, false_or, or_false]
      unfold entry
      by_cases clear : cmd = 0
      · simp [clear]
      · simp [clear, eq_comm]
    · rw [Function.update_of_ne this, bound, before]
      have notOld : (id', x) ∉ old := fun mem => this (same _ mem)
      have notNew : (id', x) ∉ entry id cmd arg := by
        unfold entry
        split
        · simp
        · simp [this]
      simp [notOld, notNew]
  · simp only [Session.note, after, calls]
    have swap : (s.table.calls ++ old.map Prod.snd ++ (pre ++ entry id cmd arg ++ post).map Prod.snd).Perm
        (s.table.calls ++ (pre ++ old ++ post).map Prod.snd ++ (entry id cmd arg).map Prod.snd) := by
      simp only [List.map_append]
      generalize (entry id cmd arg).map Prod.snd = new
      rw [List.perm_iff_count]
      intro x
      simp only [List.count_append]
      omega
    exact swap.trans (ledger.append_right _)

theorem sound_effect {s : Session} (h : Sound s) {t' : Table} {cmd arg : Nat}
    (effect : Effect id cmd arg s.table t') (ret : Nat) :
    Sound (s.note id cmd arg (t', .ok ret)) := by
  cases effect with
  | replace pre post c before used same after calls =>
      have old : entries (pre ++ c :: post) =
          entries pre ++ entry c.id c.cmd c.arg ++ entries post := by
        rw [entries_append, entries_cons, List.append_assoc]
      have new : entries (pre ++ ⟨id, cmd, arg⟩ :: post) =
          entries pre ++ entry id cmd arg ++ entries post := by
        rw [entries_append, entries_cons, List.append_assoc]
      have one : entry c.id c.cmd c.arg = [(id, c.cmd, c.arg)] := by simp [entry, used, same]
      have unique := h.unique
      rw [before, old, one] at unique
      refine sound_exchange h (by rw [before, old]) (by rw [after, new]) ?_ ?_ ?_ ret
      · simp [one]
      · simp only [List.append_assoc, List.singleton_append, List.map_append, List.map_cons,
          List.nodup_middle] at unique
        rw [List.nodup_cons, ← List.map_append] at unique
        exact unique.1
      · rw [calls, one]
        rfl
  | fill pre post old before unused absent after calls =>
      have none : entries old = [] := by simpa [entries] using unused
      have parts : entries (pre ++ old ++ post) = entries pre ++ [] ++ entries post := by
        rw [entries_append, entries_append, none]
      have new : entries (pre ++ ⟨id, cmd, arg⟩ :: post) =
          entries pre ++ entry id cmd arg ++ entries post := by
        rw [entries_append, entries_cons, List.append_assoc]
      have other := absent_fst absent
      rw [before, parts, List.append_nil] at other
      exact sound_exchange h (by rw [before, parts]) (by rw [after, new]) (by simp) other
        (by simp [calls]) ret

theorem sound_same {s : Session} (h : Sound s) {t' : Table} (cmds : t'.cmds = s.table.cmds)
    (calls : t'.calls = s.table.calls) : Sound { s with table := t' } := by
  obtain ⟨unique, bound, ledger⟩ := h
  refine ⟨?_, ?_, ?_⟩
  · simpa only [cmds] using unique
  · simpa only [cmds] using bound
  · simpa only [cmds, calls] using ledger

theorem sound_commandSet {s : Session} (h : Sound s) (id : UInt64) (cmd arg : Nat) :
    Sound (s.note id cmd arg (s.table.commandSet env id cmd arg)) := by
  rcases commandSet_effect env s.table id cmd arg with
    ⟨ret, ok, effect⟩ | ⟨⟨e, failed⟩, cmds, calls⟩
  · have eq : s.table.commandSet env id cmd arg =
        ((s.table.commandSet env id cmd arg).1, .ok ret) := by rw [← ok]
    rw [eq]
    exact sound_effect h effect ret
  · have eq : s.table.commandSet env id cmd arg =
        ((s.table.commandSet env id cmd arg).1, .error e) := by rw [← failed]
    rw [eq]
    exact sound_same h cmds calls

theorem sound_step {s : Session} (h : Sound s) (op : Op) : Sound (step env s op).1 := by
  cases op with
  | commandSet id cmd arg => exact sound_commandSet h id cmd arg
  | dispatchSet id cmd arg =>
      simp only [step, Table.dispatchSet]
      cases found : s.table.get id with
      | none =>
          by_cases clear : cmd = 0
          · simp only [clear, if_true]
            exact h
          · simp only [clear, if_false]
            exact sound_commandSet h id cmd arg
      | some pos =>
          by_cases clear : cmd = 0
          · simp only [clear, if_true]
            have effect := replace_effect found 0 0
            have same : s.note id 0 arg (s.table.replace pos 0 0, .ok pos) =
                s.note id 0 0 (s.table.replace pos 0 0, .ok pos) := by
              simp [Session.note, entry]
            rw [same]
            exact sound_effect h effect pos
          · simp only [clear, if_false]
            exact h

/-- `mpt_command_get` finds what is bound. -/
theorem Sound.found {s : Session} (h : Sound s) (id : UInt64) : s.table.found id = s.bound id := by
  unfold Table.found
  cases got : s.table.get id with
  | none =>
      cases bound : s.bound id with
      | none => rfl
      | some x =>
          have mem := List.mem_map_of_mem (f := Prod.fst) ((h.bound id x).mp bound)
          exact absurd mem (absent_fst (get_none got))
  | some pos =>
      obtain ⟨slots, pre, c, post, buf, parts, size, used, same, at_⟩ := get_some got
      have cmds : s.table.cmds = slots.cmds := by simp [Table.cmds, buf]
      have mem : (id, c.cmd, c.arg) ∈ entries s.table.cmds :=
        mem_entries.mpr ⟨c, by rw [cmds, parts]; simp, used, same, rfl, rfl⟩
      rw [(h.bound id _).mpr mem]
      simp [cmds, at_]

theorem fini_calls (t : Table) :
    t.fini.calls = t.calls ++ (entries t.cmds).map Prod.snd ∧ t.fini.buf = none := by
  unfold Table.fini Table.clear Table.drop Table.cmds
  cases buf : t.buf with
  | none => simp [buf]
  | some s => simp [Table.finiCalls, entries, Function.comp_def]

/-! ## Errors -/

/-- There is no memory for a new command: neither an unused slot nor room behind the last one, and
    a buffer for one more is refused or too large. -/
def Table.Full (env : Nat → Bool) (t : Table) : Prop :=
  match t.buf with
  | none => env t.mallocs = false
  | some s =>
      commandEmpty s.cmds = none ∧
        (Heap.longMax < (s.cmds.length + 1) * commandSize ∨
          s.size < (s.cmds.length + 1) * commandSize ∧ env t.mallocs = false)

theorem append_fails (env : Nat → Bool) (t : Table) (s : Slots) (c : Command) :
    (t.append env s c).2 = false ↔
      Heap.longMax < (s.cmds.length + 1) * commandSize ∨
        s.size < (s.cmds.length + 1) * commandSize ∧ env t.mallocs = false := by
  unfold Table.append
  rw [Nat.succ_mul]
  generalize s.cmds.length * commandSize = used
  simp only
  by_cases large : Heap.longMax - used < commandSize
  · rw [if_pos large]
    exact iff_of_true rfl (.inl (by omega))
  rw [if_neg large]
  have within : ¬ Heap.longMax < used + commandSize := by
    unfold commandSize at *
    omega
  by_cases room : used + commandSize ≤ s.size
  · rw [if_pos room]
    exact iff_of_false (fun none => by cases none) (by omega)
  rw [if_neg room]
  have enough : used + commandSize ≤ Heap.blockSize (used + commandSize) - 64 := by
    have small : used + commandSize + 192 ≤ Heap.sizeLimit := by
      unfold Heap.longMax at within
      unfold Heap.sizeLimit
      omega
    rw [Heap.blockSize_eq small, Nat.add_sub_cancel]
    exact Heap.le_roomFor _
  simp only [Table.alloc]
  cases env t.mallocs with
  | false => exact iff_of_true rfl (.inr ⟨Nat.lt_of_not_le room, rfl⟩)
  | true =>
      simp only [if_true, if_pos enough, Bool.true_eq_false, and_false, or_false, false_iff]
      exact within

/-- A command is not set only where a new one is needed and there is no memory for it. -/
theorem commandSet_fails (env : Nat → Bool) (t : Table) (id : UInt64) (cmd arg : Nat) :
    (∃ e, (t.commandSet env id cmd arg).2 = .error e) ↔ t.get id = none ∧ t.Full env := by
  unfold Table.commandSet Table.Full
  cases found : t.get id with
  | some pos => simp
  | none =>
      cases buf : t.buf with
      | none =>
          simp only [Table.alloc, true_and]
          cases env t.mallocs with
          | false => simp
          | true =>
              have enough : ¬ Heap.blockSize commandSize - 64 < commandSize := by decide
              simp [enough]
      | some s =>
          simp only [true_and]
          cases free : commandEmpty s.cmds with
          | some pos => simp
          | none =>
              have fails := append_fails env t s ⟨id, cmd, arg⟩
              simp only [true_and, ← fails]
              generalize t.append env s ⟨id, cmd, arg⟩ = r
              obtain ⟨t', done⟩ := r
              cases done <;> simp

/-- `mpt_dispatch_set` clears what is there, and registers where nothing is and memory for it. -/
theorem dispatchSet_fails (env : Nat → Bool) (t : Table) (id : UInt64) (cmd arg : Nat) :
    (∃ e, (t.dispatchSet env id cmd arg).2 = .error e) ↔
      if cmd = 0 then t.get id = none else t.get id ≠ none ∨ t.Full env := by
  unfold Table.dispatchSet
  cases found : t.get id with
  | none =>
      by_cases clear : cmd = 0
      · simp [clear]
      · simp only [if_neg clear, commandSet_fails, found, true_and, ne_eq, not_true_eq_false, false_or]
  | some pos =>
      by_cases clear : cmd = 0
      · simp [clear]
      · simp [clear]

/-- Nothing is bound where nothing is found. -/
theorem Sound.get_none {s : Session} (h : Sound s) (id : UInt64) :
    s.table.get id = none ↔ s.bound id = none := by
  rw [← h.found]
  unfold Table.found
  cases got : s.table.get id with
  | none => simp
  | some pos =>
      obtain ⟨slots, pre, c, post, buf, _, _, _, _, at_⟩ := get_some got
      have cmds : s.table.cmds = slots.cmds := by simp [Table.cmds, buf]
      simp [cmds, at_]

/-- After every sequence of calls the table is the map of what was registered last and
    not cleared, with one active entry for an id at most, and at the end every
    registered pair is terminated exactly once.  A call fails only where a new command needs
    memory that is not there, where there is nothing to clear, or where `mpt_dispatch_set`
    finds the id in use. -/
theorem table_partial_map (env : Nat → Bool) (ops : List Op) :
    let s := (machine env).after .start ops
    (∀ id, s.table.found id = s.bound id) ∧
      ((entries s.table.cmds).map Prod.fst).Nodup ∧
      (s.table.calls ++ (entries s.table.cmds).map Prod.snd).Perm s.registered ∧
      (s.table.fini.calls.Perm s.registered ∧ s.table.fini.buf = none) ∧
      ∀ id cmd arg,
        ((∃ e, (step env s (.commandSet id cmd arg)).2 = .error e) ↔
          s.bound id = none ∧ s.table.Full env) ∧
        ((∃ e, (step env s (.dispatchSet id cmd arg)).2 = .error e) ↔
          if cmd = 0 then s.bound id = none else s.bound id ≠ none ∨ s.table.Full env) := by
  intro s
  have sound : Sound s :=
    Machine.invariant_always (P := Sound) (fun s op h => sound_step h op) sound_start ops
  obtain ⟨calls, buf⟩ := fini_calls s.table
  refine ⟨sound.found, sound.unique, sound.ledger, ⟨by rw [calls]; exact sound.ledger, buf⟩, ?_⟩
  intro id cmd arg
  constructor
  · rw [← sound.get_none id]
    exact commandSet_fails env s.table id cmd arg
  · rw [ne_eq, ← sound.get_none id]
    exact dispatchSet_fails env s.table id cmd arg

/-- Of two handlers the second is found, and both are terminated at the end. -/
theorem table_partial_map_registered :
    ((machine fun _ => true).after .start
        [.dispatchSet 5 7 9, .commandSet 5 8 9, .dispatchSet 6 7 0]).table.found 5 = some (8, 9) ∧
      ((machine fun _ => true).after .start
        [.dispatchSet 5 7 9, .commandSet 5 8 9, .dispatchSet 6 7 0]).table.fini.calls.Perm
          [(7, 9), (8, 9), (7, 0)] := by
  obtain ⟨found, _, _, ⟨calls, _⟩, _⟩ := table_partial_map (fun _ => true)
    [.dispatchSet 5 7 9, .commandSet 5 8 9, .dispatchSet 6 7 0]
  exact ⟨found 5, calls⟩

end Mpt.Event
