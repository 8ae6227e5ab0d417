import Mpt.Event.Notify
import Mpt.Run
import Mathlib.Data.List.Nodup
import Mathlib.Data.List.Perm.Basic

/-! # The tables of the notifier

The used slots are the registered inputs.  What is pending in the buffer for the wait are
registered inputs as well, as long as no input is cleared while it is pending and a wait
finds the events where it looks for them.
-/

namespace Mpt.Event

/-- The registered inputs. -/
def inputs (slot : List (Option Input)) : List Input := slot.filterMap id

/-- The numbers of the used slots. -/
def fds : (i : Nat) → List (Option Input) → List Nat
  | _, [] => []
  | i, none :: rest => fds (i + 1) rest
  | i, some _ :: rest => i :: fds (i + 1) rest

section Slots

variable {slot : List (Option Input)} {p : Input} {i n : Nat}

theorem pollEvents_eq (what : Nat) (revents : Nat → Nat) (i : Nat) (slot : List (Option Input)) :
    pollEvents what revents i slot = (fds i slot).map fun fd => .event fd what (revents fd) := by
  induction slot generalizing i with
  | nil => rfl
  | cons x rest ih =>
      cases x with
      | none => exact ih (i + 1)
      | some p =>
          show Word.event i what (revents i) :: pollEvents what revents (i + 1) rest = _
          rw [ih]
          rfl

theorem length_fds (i : Nat) (slot : List (Option Input)) :
    (fds i slot).length = (inputs slot).length := by
  induction slot generalizing i with
  | nil => rfl
  | cons x rest ih =>
      cases x with
      | none => exact ih (i + 1)
      | some p =>
          show (fds (i + 1) rest).length + 1 = (inputs rest).length + 1
          rw [ih]

theorem mem_fds {fd : Nat} : fd ∈ fds i slot ↔ ∃ k p, slot[k]? = some (some p) ∧ fd = i + k := by
  induction slot generalizing i with
  | nil => simp [fds]
  | cons x rest ih =>
      have later : (∃ k p, rest[k]? = some (some p) ∧ fd = i + 1 + k) ↔
          ∃ k p, (x :: rest)[k + 1]? = some (some p) ∧ fd = i + (k + 1) := by
        simp only [List.getElem?_cons_succ, Nat.add_assoc, Nat.add_comm 1]
      cases x with
      | none =>
          show fd ∈ fds (i + 1) rest ↔ _
          rw [ih, later]
          constructor
          · rintro ⟨k, p, there, eq⟩
            exact ⟨k + 1, p, there, eq⟩
          · rintro ⟨k, p, there, eq⟩
            cases k with
            | zero => simp at there
            | succ k => exact ⟨k, p, there, eq⟩
      | some q =>
          show fd ∈ i :: fds (i + 1) rest ↔ _
          rw [List.mem_cons, ih, later]
          constructor
          · rintro (rfl | ⟨k, p, there, eq⟩)
            · exact ⟨0, q, rfl, rfl⟩
            · exact ⟨k + 1, p, there, eq⟩
          · rintro ⟨k, p, there, eq⟩
            cases k with
            | zero => exact .inl eq
            | succ k => exact .inr ⟨k, p, there, eq⟩

theorem fds_sorted (i : Nat) (slot : List (Option Input)) : (fds i slot).Pairwise (· < ·) := by
  induction slot generalizing i with
  | nil => exact .nil
  | cons x rest ih =>
      cases x with
      | none => exact ih (i + 1)
      | some p =>
          refine List.pairwise_cons.mpr ⟨fun fd mem => ?_, ih (i + 1)⟩
          obtain ⟨k, _, _, rfl⟩ := mem_fds.mp mem
          omega

/-- One more used slot. -/
theorem inputs_set (empty : slot[i]? = some none) (p : Input) :
    (inputs (slot.set i (some p))).Perm (p :: inputs slot) := by
  induction slot generalizing i with
  | nil => simp at empty
  | cons x rest ih =>
      cases i with
      | zero =>
          obtain rfl : x = none := by simpa using empty
          exact .refl _
      | succ i =>
          have inner := ih (List.getElem?_cons_succ ▸ empty)
          cases x with
          | none => exact inner
          | some q => exact (inner.cons q).trans (.swap p q _)

/-- One used slot less. -/
theorem inputs_unset (used : slot[i]? = some (some p)) :
    (inputs slot).Perm (p :: inputs (slot.set i none)) := by
  induction slot generalizing i with
  | nil => simp at used
  | cons x rest ih =>
      cases i with
      | zero =>
          obtain rfl : x = some p := by simpa using used
          exact .refl _
      | succ i =>
          have inner := ih (List.getElem?_cons_succ ▸ used)
          cases x with
          | none => exact inner
          | some q => exact (inner.cons q).trans (.swap p q _)

theorem inputs_grow (slot : List (Option Input)) (n : Nat) :
    inputs (slot ++ List.replicate n none) = inputs slot := by
  unfold inputs
  rw [List.filterMap_append]
  simp

theorem mem_inputs : p ∈ inputs slot ↔ ∃ i : Nat, slot[i]? = some (some p) := by
  unfold inputs
  rw [List.mem_filterMap, ← List.mem_iff_getElem?]
  simp

end Slots

/-! ## Registration -/

/-- Every input is in the slot of its file; slots are counted; every reference that was
    accepted is held or was released. -/
structure Registered (socket : Input → Option Nat) (no : Notify) : Prop where
  own : ∀ i p, no.slot[i]? = some (some p) → socket p = some i
  count : no.fdused = (inputs no.slot).length
  refs : no.accepted.Perm (no.released ++ inputs no.slot)

section Calls

variable {socket : Input → Option Nat} {no : Notify} {p : Input} {file : Nat}

theorem Registered.unique (reg : Registered socket no) {i j : Nat} (first : no.slot[i]? = some (some p))
    (second : no.slot[j]? = some (some p)) : i = j :=
  Option.some.inj ((reg.own i p first).symm.trans (reg.own j p second))

theorem registered_init (socket : Input → Option Nat) : Registered socket .init :=
  ⟨fun i p found => by simp [Notify.init] at found, rfl, .refl _⟩

theorem getElem?_grow {slot : List (Option Input)} {n i : Nat} {q : Option Input}
    (found : (slot ++ List.replicate n none)[i]? = some q) : slot[i]? = some q ∨ q = none := by
  by_cases old : i < slot.length
  · rw [List.getElem?_append_left old] at found
    exact .inl found
  · rw [List.getElem?_append_right (by omega), List.getElem?_replicate] at found
    split at found
    · exact .inr (Option.some.inj found).symm
    · cases found

theorem Registered.add (reg : Registered socket no) (granted : Bool) (mode : Int) (given : Option Input) :
    Registered socket (no.add socket granted mode given).1 ∧
      (no.add socket granted mode given).1.wait = no.wait ∧
      ∀ q ∈ inputs no.slot, q ∈ inputs (no.add socket granted mode given).1.slot := by
  unfold Notify.add
  cases given with
  | none => exact ⟨reg, rfl, fun q mem => mem⟩
  | some p =>
      cases file : socket p with
      | none =>
          simp only [file]
          exact ⟨reg, trivial, fun q mem => mem⟩
      | some id =>
          simp only [file]
          by_cases refused : no.slot.length ≤ id ∧ granted = false
          · rw [if_pos refused]
            exact ⟨reg, rfl, fun q mem => mem⟩
          · rw [if_neg refused]
            generalize grown : no.slot ++ List.replicate (id + 1 - no.slot.length) none = slot
            have same : inputs slot = inputs no.slot := by
              rw [← grown]
              exact inputs_grow _ _
            have own : ∀ i q, slot[i]? = some (some q) → socket q = some i := by
              intro i q found
              rw [← grown] at found
              rcases getElem?_grow found with old | new
              · exact reg.own i q old
              · cases new
            cases there : slot[id]?.join with
            | some other =>
                exact ⟨⟨own, by rw [reg.count, same], by rw [same]; exact reg.refs⟩, rfl,
                  fun q mem => same.symm ▸ mem⟩
            | none =>
                have inside : id < slot.length := by
                  rw [← grown, List.length_append, List.length_replicate]
                  omega
                have empty : slot[id]? = some none := by
                  rw [List.getElem?_eq_getElem inside] at there ⊢
                  exact congrArg some there
                have perm := inputs_set empty p
                rw [same] at perm
                refine ⟨⟨fun i q found => ?_, ?_, ?_⟩, rfl, fun q mem =>
                  perm.symm.subset (List.mem_cons_of_mem _ mem)⟩
                · by_cases here : id = i
                  · subst here
                    rw [List.getElem?_set_self inside] at found
                    obtain rfl : p = q := by simpa using found
                    exact file
                  · rw [List.getElem?_set_ne here] at found
                    exact own i q found
                · show no.fdused + 1 = _
                  rw [perm.length_eq, reg.count, List.length_cons]
                · show (no.accepted ++ [p]).Perm (no.released ++ inputs (slot.set id (some p)))
                  have last : (no.accepted ++ [p]).Perm (no.released ++ inputs no.slot ++ [p]) :=
                    reg.refs.append_right [p]
                  rw [List.append_assoc] at last
                  exact last.trans ((List.perm_append_singleton p _).trans perm.symm |>.append_left _)

/-- No other slot has the input that is cleared. -/
theorem Registered.purge (reg : Registered socket no) {curr : Input}
    (used : no.slot[file]? = some (some curr)) (len : Nat) :
    purge curr file len (no.slot.set file none) = no.slot.set file none := by
  refine List.ext_getElem? fun i => ?_
  unfold Event.purge
  rw [List.getElem?_mapIdx]
  cases there : (no.slot.set file none)[i]? with
  | none => rfl
  | some q =>
      rw [Option.map_some]
      split
      · next same =>
        obtain ⟨_, _, rfl⟩ := same
        by_cases here : file = i
        · subst here
          rw [List.getElem?_set_self (List.getElem?_eq_some_iff.mp used).1] at there
          exact there
        · rw [List.getElem?_set_ne here] at there
          exact absurd (reg.unique used there) here
      · rfl

theorem clear_eq (reg : Registered socket no) {curr : Input}
    (used : no.slot[file]? = some (some curr)) :
    (no.clear file).1 = { no with
      slot := no.slot.set file none
      fdused := no.fdused - 1
      released := no.released ++ [curr] } := by
  unfold Notify.clear
  rw [used]
  simp only [reg.purge used]

theorem Registered.clear (reg : Registered socket no) (file : Nat) :
    Registered socket (no.clear file).1 := by
  cases used : no.slot[file]? with
  | none =>
      unfold Notify.clear
      rw [used]
      exact reg
  | some q =>
      cases q with
      | none =>
          unfold Notify.clear
          rw [used]
          exact reg
      | some curr =>
          have perm := inputs_unset used
          rw [clear_eq reg used]
          refine ⟨fun i q found => ?_, ?_, ?_⟩
          · by_cases here : file = i
            · subst here
              rw [List.getElem?_set_self (List.getElem?_eq_some_iff.mp used).1] at found
              cases Option.some.inj found
            · rw [List.getElem?_set_ne here] at found
              exact reg.own i q found
          · show no.fdused - 1 = _
            rw [reg.count, perm.length_eq, List.length_cons, Nat.add_sub_cancel]
          · show no.accepted.Perm (no.released ++ [curr] ++ inputs (no.slot.set file none))
            rw [List.append_assoc]
            exact reg.refs.trans (perm.append_left _)

theorem clear_unused (unused : ∀ p, no.slot[file]? ≠ some (some p)) : (no.clear file).1 = no := by
  unfold Notify.clear
  cases used : no.slot[file]? with
  | none => rfl
  | some q =>
      cases q with
      | none => rfl
      | some curr => exact absurd used (unused curr)

end Calls

/-! ## Waiting -/

/-- The input that a slot adds to the result of a wait. -/
def chosen (what : Nat) (revents : Nat → Nat) (next : Input → Nat → Int) (slot : List (Option Input))
    (fd : Nat) : Option Input :=
  if revents fd &&& what = 0 then none
  else (slot[fd]?.join).filter fun p => 0 < next p (revents fd &&& what)

/-- The first elements of the buffer are results, and those behind the position are records. -/
structure Scanned (what : Nat) (revents : Nat → Nat) (results : List Input) (i : Nat) (files : List Nat)
    (words : List Word) : Prop where
  front : words.take results.length = results.map .input
  room : results.length ≤ i
  rest : ∃ more, words.drop i = (files.map fun fd => .event fd what (revents fd)) ++ more

section Waiting

variable {socket : Input → Option Nat} {no : Notify} {what : Nat} {revents : Nat → Nat}
  {next : Input → Nat → Int} {results : List Input} {i : Nat} {fd : Nat} {files : List Nat}

theorem Scanned.skip {words : List Word} (scanned : Scanned what revents results i (fd :: files) words) :
    Scanned what revents results (i + 1) files words := by
  obtain ⟨more, rest⟩ := scanned.rest
  refine ⟨scanned.front, Nat.le_succ_of_le scanned.room, more, ?_⟩
  rw [← List.drop_drop, rest]
  rfl

theorem Scanned.store {words : List Word} (scanned : Scanned what revents results i (fd :: files) words)
    (p : Input) :
    Scanned what revents (results ++ [p]) (i + 1) files (words.set results.length (.input p)) := by
  have skip := scanned.skip
  have inside : i < words.length := by
    by_contra beyond
    obtain ⟨more, rest⟩ := scanned.rest
    rw [List.drop_eq_nil_of_le (Nat.le_of_not_lt beyond)] at rest
    cases rest
  have room := scanned.room
  refine ⟨?_, ?_, ?_⟩
  · rw [List.length_append, List.length_singleton, List.take_add_one, List.take_set_of_le (Nat.le_refl _),
      scanned.front, List.getElem?_set_self (by omega), List.map_append]
    rfl
  · rw [List.length_append, List.length_singleton]
    omega
  · rw [List.drop_set_of_lt (by omega)]
    exact skip.rest

theorem Scanned.first {words : List Word} (scanned : Scanned what revents results i (fd :: files) words) :
    words[i]? = some (.event fd what (revents fd)) := by
  obtain ⟨more, rest⟩ := scanned.rest
  have head : (words.drop i)[0]? = some (.event fd what (revents fd)) := by
    rw [rest]
    rfl
  rwa [List.getElem?_drop, Nat.add_zero] at head

/-- Slots of other files choose the same. -/
theorem chosen_set (other : fd ∉ files) (slot : List (Option Input)) :
    files.filterMap (chosen what revents next (slot.set fd none)) =
      files.filterMap (chosen what revents next slot) := by
  refine List.filterMap_congr fun file mem => ?_
  have apart : fd ≠ file := fun same => other (same ▸ mem)
  unfold chosen
  rw [List.getElem?_set_ne apart]

/-- The loop of a wait stores the chosen inputs, which stay registered. -/
theorem waitLoop_spec (rounds : Nat) (reg : Registered socket no)
    (scanned : Scanned what revents results i files no.wait) (enough : rounds ≤ files.length)
    (sorted : files.Pairwise (· < ·))
    (kept : ∀ p ∈ results, ∃ k, no.slot[k]? = some (some p) ∧ k ∉ files) :
    ∃ no', waitLoop what next rounds i no results.length =
        (no', (results ++ (files.take rounds).filterMap (chosen what revents next no.slot)).length) ∧
      Registered socket no' ∧
      no'.wait.take (results ++ (files.take rounds).filterMap (chosen what revents next no.slot)).length =
        (results ++ (files.take rounds).filterMap (chosen what revents next no.slot)).map .input ∧
      ∀ p ∈ results ++ (files.take rounds).filterMap (chosen what revents next no.slot),
        p ∈ inputs no'.slot := by
  induction rounds generalizing no results i files with
  | zero =>
      simp only [List.take_zero, List.filterMap_nil, List.append_nil]
      refine ⟨no, rfl, reg, scanned.front, fun p mem => ?_⟩
      obtain ⟨k, there, _⟩ := kept p mem
      exact mem_inputs.mpr ⟨k, there⟩
  | succ rounds ih =>
      cases files with
      | nil => simp at enough
      | cons fd files =>
          have enough : rounds ≤ files.length := Nat.le_of_succ_le_succ enough
          have later := (List.pairwise_cons.mp sorted).1
          have sorted := (List.pairwise_cons.mp sorted).2
          have other : fd ∉ files := fun mem => Nat.lt_irrefl fd (later fd mem)
          have kept' : ∀ p ∈ results, ∃ k, no.slot[k]? = some (some p) ∧ k ∉ files := by
            intro p mem
            obtain ⟨k, there, apart⟩ := kept p mem
            exact ⟨k, there, fun mem => apart (List.mem_cons_of_mem _ mem)⟩
          rw [List.take_succ_cons]
          unfold waitLoop
          simp only [scanned.first]
          by_cases quiet : revents fd &&& what = 0
          · have choice : chosen what revents next no.slot fd = none := if_pos quiet
            rw [if_pos quiet, List.filterMap_cons_none choice]
            exact ih reg scanned.skip enough sorted kept'
          · rw [if_neg quiet]
            cases slot : no.slot[fd]?.join with
            | none =>
                have choice : chosen what revents next no.slot fd = none := by
                  unfold chosen
                  rw [if_neg quiet, slot]
                  rfl
                rw [List.filterMap_cons_none choice]
                exact ih reg scanned.skip enough sorted kept'
            | some curr =>
                have used : no.slot[fd]? = some (some curr) := Option.join_eq_some_iff.mp slot
                dsimp only
                by_cases failed : next curr (revents fd &&& what) < 0
                · have choice : chosen what revents next no.slot fd = none := by
                    unfold chosen
                    rw [if_neg quiet, slot]
                    exact Option.filter_eq_none_iff.mpr fun p mem => by
                      obtain rfl : curr = p := by simpa using mem
                      simp only [decide_eq_true_eq]
                      omega
                  have cleared := clear_eq reg used
                  have slots : (no.clear fd).1.slot = no.slot.set fd none := by rw [cleared]
                  have words : (no.clear fd).1.wait = no.wait := by rw [cleared]
                  rw [if_pos failed, List.filterMap_cons_none choice, ← chosen_set
                    (fun mem => other (List.mem_of_mem_take mem)), ← slots]
                  refine ih (reg.clear fd) (words.symm ▸ scanned.skip) enough sorted fun p mem => ?_
                  obtain ⟨k, there, apart⟩ := kept p mem
                  have far : fd ≠ k := by
                    rintro rfl
                    exact apart (List.mem_cons_self ..)
                  rw [slots]
                  exact ⟨k, (List.getElem?_set_ne far).trans there,
                    fun mem => apart (List.mem_cons_of_mem _ mem)⟩
                · rw [if_neg failed]
                  by_cases zero : next curr (revents fd &&& what) = 0
                  · have choice : chosen what revents next no.slot fd = none := by
                      unfold chosen
                      rw [if_neg quiet, slot]
                      exact Option.filter_eq_none_iff.mpr fun p mem => by
                        obtain rfl : curr = p := by simpa using mem
                        simp only [decide_eq_true_eq]
                        omega
                    rw [if_pos zero, List.filterMap_cons_none choice]
                    exact ih reg scanned.skip enough sorted kept'
                  · have choice : chosen what revents next no.slot fd = some curr := by
                      have positive : 0 < next curr (revents fd &&& what) := by omega
                      unfold chosen
                      rw [if_neg quiet, slot]
                      simp [positive]
                    rw [if_neg zero, List.filterMap_cons_some choice, List.append_cons]
                    have inner := @ih { no with wait := no.wait.set results.length (.input curr) }
                      (results ++ [curr]) (i + 1) files ⟨reg.own, reg.count, reg.refs⟩
                      (scanned.store curr) enough sorted fun p mem => ?_
                    · have count : (results ++ [curr]).length = results.length + 1 := by simp
                      rw [count] at inner
                      exact inner
                    · rcases List.mem_append.mp mem with old | new
                      · exact kept' p old
                      · obtain rfl := List.mem_singleton.mp new
                        exact ⟨fd, used, other⟩

/-- The answer of `poll`: how many files have events. -/
def acting (no : Notify) (revents : Nat → Nat) : Nat := (fds 0 no.slot).countP fun fd => revents fd ≠ 0

/-- What a wait stores when `poll` finds events. -/
def found (no : Notify) (what : Nat) (revents : Nat → Nat) (next : Input → Nat → Int) : List Input :=
  ((fds 0 no.slot).take (acting no revents)).filterMap (chosen what revents next no.slot)

theorem chosen_some {p : Input} (choice : chosen what revents next no.slot fd = some p) :
    no.slot[fd]? = some (some p) := by
  unfold chosen at choice
  split at choice
  · cases choice
  · exact Option.join_eq_some_iff.mp (Option.filter_eq_some_iff.mp choice).1

theorem found_nodup (reg : Registered socket no) (what : Nat) (revents : Nat → Nat)
    (next : Input → Nat → Int) : (found no what revents next).Nodup := by
  have sorted := (fds_sorted 0 no.slot).sublist
    (List.take_sublist (acting no revents) _)
  refine List.Pairwise.filterMap _ ?_ sorted
  intro fd fd' less p choice q choice' same
  obtain rfl : p = q := same
  exact Nat.ne_of_lt less (reg.unique (chosen_some choice) (chosen_some choice'))

theorem countP_events (what : Nat) (revents : Nat → Nat) (files : List Nat) :
    (files.map fun fd => Word.event fd what (revents fd)).countP Word.active =
      files.countP fun fd => revents fd ≠ 0 := by
  rw [List.countP_map]
  rfl

end Waiting

/-! ## Runs -/

/-- One call.  The pending inputs are told by `next`. -/
inductive Notify.Op where
  | add (granted : Bool) (mode : Int) (given : Option Input)
  | clear (file : Nat)
  | wait (granted : Bool) (what : Nat) (found : Option (Nat → Nat)) (next : Input → Nat → Int)
  | next

namespace Notify

/-- The answer is what `mpt_notify_next` returns. -/
def call (socket : Input → Option Nat) (no : Notify) : Op → Notify × Option Word
  | .add granted mode given => ((no.add socket granted mode given).1, none)
  | .clear file => ((no.clear file).1, none)
  | .wait granted what found next => ((no.waitFor granted what found next).1, none)
  | .next => (no.next.1, some no.next.2)

def machine (socket : Input → Option Nat) : Machine Notify Op (Option Word) := ⟨call socket⟩

/-- The condition for a call: no pending input is cleared; a wait that finds nothing has no
    result of another one in its buffer, and one that does finds it in the first records. -/
def Fine (no : Notify) : Op → Prop
  | .clear file => ∀ p, no.slot[file]? = some (some p) → Word.input p ∉ no.wait
  | .wait granted what found next =>
      no.fdused ≤ no.wait.length ∨ granted = true →
        let revents := found.getD fun _ => 0
        if acting no revents = 0 then no.wait = []
        else ∀ fd ∈ (fds 0 no.slot).drop (acting no revents), chosen what revents next no.slot fd = none
  | _ => True

/-- What is pending is registered. -/
structure Good (socket : Input → Option Nat) (no : Notify) : Prop extends Registered socket no where
  pending : ∀ w ∈ no.wait, w = .null ∨ ∃ p ∈ inputs no.slot, w = .input p

variable {socket : Input → Option Nat} {no : Notify}

/-- A wait that is not refused. -/
theorem waitFor_eq {granted : Bool} {what : Nat} {reply : Option (Nat → Nat)}
    {next : Input → Nat → Int} {records words : List Word} (used : no.fdused ≠ 0)
    (memory : ¬ (no.wait.length < no.fdused ∧ granted = false))
    (ready : pollEvents what (reply.getD fun _ => 0) 0 no.slot = records)
    (grown : no.wait ++ List.replicate (no.fdused - no.wait.length) Word.null = words)
    (whole : (records ++ words.drop records.length).length = words.length) :
    (no.waitFor granted what reply next).1 =
      if records.countP Word.active = 0 then
        { no with wait := (records ++ words.drop records.length).take no.wait.length }
      else
        let (after, fdmax) := waitLoop what next (records.countP Word.active) 0
          { no with wait := records ++ words.drop records.length } 0
        { after with wait := after.wait.take fdmax } := by
  subst ready grown
  unfold waitFor
  rw [if_neg used, if_neg memory, ← List.take_of_length_le (Nat.le_of_eq whole)]
  simp only
  split <;> rfl

/-- What the wait does to the buffer. -/
theorem waitFor_cases (reg : Registered socket no) (granted : Bool) (what : Nat)
    {reply : Option (Nat → Nat)} {revents : Nat → Nat} (events : (reply.getD fun _ => 0) = revents)
    (next : Input → Nat → Int) :
    ((no.waitFor granted what reply next).1 = no ∧
        (no.fdused = 0 ∨ no.wait.length < no.fdused ∧ granted = false)) ∨
      (acting no revents = 0 ∧ (no.fdused ≤ no.wait.length ∨ granted = true) ∧
        ∃ words, (no.waitFor granted what reply next).1 = { no with wait := words } ∧
          words.length = no.wait.length) ∨
      (acting no revents ≠ 0 ∧ (no.fdused ≤ no.wait.length ∨ granted = true) ∧
        Registered socket (no.waitFor granted what reply next).1 ∧
        (no.waitFor granted what reply next).1.wait = (Event.found no what revents next).map .input ∧
        ∀ p ∈ Event.found no what revents next, p ∈ inputs (no.waitFor granted what reply next).1.slot) := by
  by_cases idle : no.fdused = 0
  · refine .inl ⟨?_, .inl idle⟩
    unfold waitFor
    rw [if_pos idle]
  by_cases refused : no.wait.length < no.fdused ∧ granted = false
  · refine .inl ⟨?_, .inr refused⟩
    unfold waitFor
    rw [if_neg idle, if_pos refused]
  refine .inr ?_
  have memory : no.fdused ≤ no.wait.length ∨ granted = true := by
    cases granted with
    | true => exact .inr rfl
    | false => exact .inl (Nat.le_of_not_lt fun less => refused ⟨less, rfl⟩)
  generalize ready : pollEvents what (reply.getD fun _ => 0) 0 no.slot = records
  have listed : (fds 0 no.slot).map (fun fd => Word.event fd what (revents fd)) = records := by
    rw [← ready, events, pollEvents_eq]
  have count : records.length = no.fdused := by
    rw [← listed, List.length_map, length_fds, reg.count]
  have active : records.countP Word.active = acting no revents := by
    rw [← listed]
    exact countP_events what revents _
  generalize grown : no.wait ++ List.replicate (no.fdused - no.wait.length) Word.null = words
  have size : words.length = max no.wait.length no.fdused := by
    rw [← grown, List.length_append, List.length_replicate]
    omega
  have whole : (records ++ words.drop records.length).length = words.length := by
    rw [List.length_append, List.length_drop]
    omega
  rw [waitFor_eq idle refused ready grown whole, active]
  by_cases none_ : acting no revents = 0
  · rw [if_pos none_]
    refine .inl ⟨none_, memory, _, rfl, ?_⟩
    rw [List.length_take, whole]
    omega
  · rw [if_neg none_]
    have scanned : Scanned what revents [] 0 (fds 0 no.slot) (records ++ words.drop records.length) :=
      ⟨rfl, Nat.le_refl 0, words.drop records.length, by rw [listed]; rfl⟩
    have enough : acting no revents ≤ (fds 0 no.slot).length := List.countP_le_length
    have start : Registered socket { no with wait := records ++ words.drop records.length } :=
      ⟨reg.own, reg.count, reg.refs⟩
    obtain ⟨after, loop, reg', front, kept⟩ := waitLoop_spec (acting no revents) start
      scanned enough (fds_sorted 0 no.slot) (fun p mem => by cases mem)
    simp only [List.length_nil, List.nil_append] at loop front kept
    rw [loop]
    exact .inr ⟨none_, memory, ⟨reg'.own, reg'.count, reg'.refs⟩, front, kept⟩

/-- The elements that are not empty. -/
def pendings (words : List Word) : List Word := words.filter fun w => w ≠ .null

theorem takeFirst_cases (words : List Word) :
    (takeFirst words = none ∧ pendings words = []) ∨
      ∃ words' w, takeFirst words = some (words', w) ∧ w ∈ words ∧ w ≠ .null ∧
        pendings words = w :: pendings words' ∧ ∀ x ∈ words', x = .null ∨ x ∈ words := by
  induction words with
  | nil => exact .inl ⟨rfl, rfl⟩
  | cons x rest ih =>
      by_cases empty : x = .null
      · subst empty
        rcases ih with ⟨run, none_⟩ | ⟨words', w, run, mem, some_, more, from_⟩
        · exact .inl ⟨by simp [takeFirst, run], none_⟩
        · refine .inr ⟨.null :: words', w, by simp [takeFirst, run], List.mem_cons_of_mem _ mem, some_,
            more, fun y there => ?_⟩
          rcases List.mem_cons.mp there with rfl | there
          · exact .inl rfl
          · exact (from_ y there).imp id (List.mem_cons_of_mem _)
      · have run : takeFirst (x :: rest) = some (.null :: rest, x) := by
          cases x with
          | null => exact absurd rfl empty
          | input => rfl
          | event => rfl
        refine .inr ⟨_, x, run, List.mem_cons_self .., empty, ?_, fun y there => ?_⟩
        · simp [pendings, empty]
        · rcases List.mem_cons.mp there with rfl | there
          · exact .inl rfl
          · exact .inr (List.mem_cons_of_mem _ there)

/-- Everything pending is returned, in order. -/
theorem count_next (socket : Input → Option Nat) (p : Input) (k : Nat) (no : Notify)
    (enough : (pendings no.wait).length ≤ k) :
    ((machine socket).outputs no (List.replicate k .next)).count (some (.input p)) =
      (pendings no.wait).count (.input p) := by
  induction k generalizing no with
  | zero =>
      rw [List.eq_nil_of_length_eq_zero (Nat.le_zero.mp enough)]
      rfl
  | succ k ih =>
      show (some no.next.2 :: (machine socket).outputs no.next.1 (List.replicate k .next)).count
        (some (.input p)) = _
      unfold Notify.next
      rcases takeFirst_cases no.wait with ⟨run, none_⟩ | ⟨words', w, run, _, _, more, _⟩
      · rw [run]
        have inner := ih { no with wait := [] } (Nat.zero_le _)
        simp only [none_]
        rw [List.count_cons, inner]
        rfl
      · rw [run]
        rw [more, List.length_cons] at enough
        have inner := ih { no with wait := words' } (Nat.le_of_succ_le_succ enough)
        simp only [more]
        rw [List.count_cons, List.count_cons, inner]
        simp

theorem good_init (socket : Input → Option Nat) : Good socket .init :=
  ⟨registered_init socket, fun w mem => by cases mem⟩

theorem Good.call (good : Good socket no) (op : Op) (fine : Fine no op) :
    Good socket (no.call socket op).1 := by
  cases op with
  | add granted mode given =>
      obtain ⟨reg, wait, more⟩ := good.toRegistered.add granted mode given
      refine ⟨reg, fun w mem => ?_⟩
      rw [show ((no.call socket (.add granted mode given)).1).wait = no.wait from wait] at mem
      exact (good.pending w mem).imp id fun ⟨p, there, eq⟩ => ⟨p, more p there, eq⟩
  | clear file =>
      refine ⟨good.toRegistered.clear file, fun w mem => ?_⟩
      by_cases used : ∃ p, no.slot[file]? = some (some p)
      · obtain ⟨curr, used⟩ := used
        have cleared : (no.call socket (.clear file)).1 = _ := clear_eq good.toRegistered used
        rw [cleared] at mem ⊢
        refine (good.pending w mem).imp id fun ⟨p, there, eq⟩ => ⟨p, ?_, eq⟩
        rcases List.mem_cons.mp ((inputs_unset used).subset there) with rfl | there
        · exact absurd (eq ▸ mem) (fine p used)
        · exact there
      · have same : (no.call socket (.clear file)).1 = no :=
          clear_unused fun p there => used ⟨p, there⟩
        rw [same] at mem ⊢
        exact good.pending w mem
  | wait granted what reply next =>
      show Good socket (no.waitFor granted what reply next).1
      rcases waitFor_cases good.toRegistered granted what rfl next with
        ⟨same, _⟩ | ⟨none_, memory, words, after, count⟩ | ⟨_, _, reg, stored, there⟩
      · rw [same]
        exact good
      · have empty := fine memory
        rw [if_pos none_] at empty
        rw [empty] at count
        rw [after, List.eq_nil_of_length_eq_zero count]
        exact ⟨⟨good.own, good.count, good.refs⟩, fun w mem => by cases mem⟩
      · refine ⟨reg, fun w mem => ?_⟩
        rw [stored] at mem
        obtain ⟨p, mem₁, rfl⟩ := List.mem_map.mp mem
        exact .inr ⟨p, there p mem₁, rfl⟩
  | next =>
      show Good socket no.next.1
      unfold Notify.next
      rcases takeFirst_cases no.wait with ⟨run, _⟩ | ⟨words', w, run, _, _, _, from_⟩
      · rw [run]
        exact ⟨⟨good.own, good.count, good.refs⟩, fun w mem => by cases mem⟩
      · rw [run]
        refine ⟨⟨good.own, good.count, good.refs⟩, fun x mem => ?_⟩
        rcases from_ x mem with rfl | old
        · exact .inl rfl
        · exact good.pending x old

/-- The counter, the references, and what `mpt_notify_next` returns. -/
structure Right (no : Notify) : Prop where
  used : no.fdused = no.slot.countP Option.isSome
  refs : no.accepted.Perm (no.released ++ no.slot.filterMap id)
  next : no.next.2 = .null ∨ ∃ (i : Nat) (p : Input), no.slot[i]? = some (some p) ∧ no.next.2 = .input p

/-- The inputs that are ready and have something to be processed are returned once. -/
def Delivered (socket : Input → Option Nat) (no : Notify) (what : Nat) (revents : Nat → Nat)
    (next : Input → Nat → Int) (no' : Notify) : Prop :=
  ∀ (fd : Nat) p, no.slot[fd]? = some (some p) → revents fd &&& what ≠ 0 →
    0 < next p (revents fd &&& what) → ∀ k, no'.wait.length ≤ k →
      ((machine socket).outputs no' (List.replicate k .next)).count (some (.input p)) = 1

theorem Good.right (good : Good socket no) : Right no := by
  refine ⟨?_, good.refs, ?_⟩
  · rw [good.count, inputs, List.length_filterMap_eq_countP]
    rfl
  · unfold Notify.next
    rcases takeFirst_cases no.wait with ⟨run, _⟩ | ⟨words', w, run, mem, _⟩
    · rw [run]
      exact .inl rfl
    · rw [run]
      rcases good.pending w mem with null | ⟨p, there, eq⟩
      · exact .inl null
      · obtain ⟨i, there⟩ := mem_inputs.mp there
        exact .inr ⟨i, p, there, eq⟩

theorem Good.delivered (good : Good socket no) {granted : Bool} {what : Nat}
    {reply : Option (Nat → Nat)} {next : Input → Nat → Int}
    (fine : Fine no (.wait granted what reply next))
    (memory : no.fdused ≤ no.wait.length ∨ granted = true) :
    Delivered socket no what (reply.getD fun _ => 0) next (no.waitFor granted what reply next).1 := by
  intro fd p used ready positive k enough
  have reg := good.toRegistered
  have fine := fine memory
  generalize events : (reply.getD fun _ => 0) = revents at ready positive fine
  have file : fd ∈ fds 0 no.slot := mem_fds.mpr ⟨fd, p, used, (Nat.zero_add fd).symm⟩
  have acts : acting no revents ≠ 0 := by
    have some_ : revents fd ≠ 0 := fun zero => ready (by rw [zero, Nat.zero_and])
    exact Nat.pos_iff_ne_zero.mp (List.countP_pos_iff.mpr ⟨fd, file, decide_eq_true some_⟩)
  have choice : chosen what revents next no.slot fd = some p := by
    unfold chosen
    rw [if_neg ready, used]
    simp [positive]
  rw [if_neg acts] at fine
  have mem : p ∈ Event.found no what revents next := by
    rw [← List.take_append_drop (acting no revents) (fds 0 no.slot)] at file
    rcases List.mem_append.mp file with first | late
    · exact List.mem_filterMap.mpr ⟨fd, first, choice⟩
    · rw [fine fd late] at choice
      cases choice
  rcases waitFor_cases reg granted what events next with ⟨_, idle | refused⟩ | ⟨none_, _⟩ | ⟨_, _, _, stored, _⟩
  · have some_ := List.length_pos_of_mem (mem_inputs.mpr ⟨fd, used⟩)
    rw [reg.count] at idle
    omega
  · rcases memory with room | granted
    · omega
    · rw [granted] at refused
      cases refused.2
  · exact absurd none_ acts
  · have all : pendings (no.waitFor granted what reply next).1.wait =
        (no.waitFor granted what reply next).1.wait := by
      unfold pendings
      rw [stored]
      exact List.filter_eq_self.mpr fun w mem => by
        obtain ⟨q, _, rfl⟩ := List.mem_map.mp mem
        rfl
    rw [count_next socket p k _ (by rw [all]; exact enough), all, stored]
    have nodup : ((Event.found no what revents next).map Word.input).Nodup :=
      (found_nodup reg what revents next).map fun a b same => Word.input.inj same
    exact List.count_eq_one_of_mem nodup (List.mem_map_of_mem mem)

/-- In every run whose calls meet the condition the counter and the references are right,
    only registered inputs are returned, and each wait delivers those that are ready. -/
theorem notify_of_run (socket : Input → Option Nat) (ops : List Op)
    (fine : (machine socket).Meets Fine .init ops) :
    (∀ before, before <+: ops → Right ((machine socket).after .init before)) ∧
      ∀ before granted what reply next, before ++ [.wait granted what reply next] <+: ops →
        let no := (machine socket).after .init before
        no.fdused ≤ no.wait.length ∨ granted = true →
          Delivered socket no what (reply.getD fun _ => 0) next
            ((machine socket).after .init (before ++ [.wait granted what reply next])) := by
  have keep : ∀ no op, Good socket no → Fine no op → Good socket ((machine socket).step no op).1 :=
    fun no op good fine => good.call op fine
  constructor
  · rintro before ⟨rest, rfl⟩
    rw [Machine.meets_append] at fine
    exact (Machine.invariant keep (good_init socket) fine.1).right
  · rintro before granted what reply next ⟨rest, rfl⟩
    rw [Machine.meets_append, Machine.meets_append] at fine
    have good := Machine.invariant keep (good_init socket) fine.1.1
    intro no memory
    rw [Machine.after_append]
    exact good.delivered fine.1.2.1 memory

/-- Two inputs, of which the first is ready, is processed and cleared. -/
theorem notify_sample : Right ((machine some).after .init
    [.add true 1 (some 3), .add true 1 (some 5),
      .wait true 1 (some fun fd => if fd = 3 then 1 else 0) (fun _ _ => 1), .next, .clear 3]) := by
  have fine : (machine some).Meets Fine .init
      [.add true 1 (some 3), .add true 1 (some 5),
        .wait true 1 (some fun fd => if fd = 3 then 1 else 0) (fun _ _ => 1), .next, .clear 3] := by
    refine ⟨trivial, trivial, fun _ => ?_, trivial, fun p used mem => ?_, trivial⟩
    · decide
    · have words : ∀ w ∈ [Word.null], w ≠ .input p := by simp
      exact words _ mem rfl
  exact (notify_of_run some _ fine).1 _ List.prefix_rfl

/-- An input that is cleared is returned, and one that is ready is not found behind another. -/
theorem notify_wrong :
    (¬ ∀ ops, Right ((machine some).after .init ops)) ∧
      ¬ ∀ (before : List Op) (what : Nat) (reply : Option (Nat → Nat)) (next : Input → Nat → Int),
        Delivered some ((machine some).after .init before) what (reply.getD fun _ => 0) next
          ((machine some).after .init (before ++ [.wait true what reply next])) := by
  constructor
  · intro all
    rcases (all [.add true 1 (some 3), .wait true 1 (some fun _ => 1) (fun _ _ => 1), .clear 3]).next with
      null | ⟨i, p, used, _⟩
    · exact absurd null (by decide)
    · have empty : ∀ q ∈ ([none, none, none, none] : List (Option Input)), q ≠ some p := by simp
      exact empty _ (List.mem_of_getElem? used) rfl
  · intro all
    have late := all [.add true 1 (some 3), .add true 1 (some 5)] 1
      (some fun fd => if fd = 5 then 1 else 0) (fun _ _ => 1) 5 5 (by decide) (by decide) (by decide) 2
      (by decide)
    exact absurd late (by decide)

end Notify

end Mpt.Event
