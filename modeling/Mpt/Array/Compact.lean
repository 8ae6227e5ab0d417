import Mpt.Event.Reserve
import Mpt.Plot.Mapping

/-! # Compaction

`mpt_array_compact` moves the pointers that are set to the front of their array.  The free position
goes along: all positions from there to the current one are free.
-/

namespace Mpt.Compact

/-! ## Elements of any kind -/

section Loop

variable {α : Type} (free : α → Bool) (clear : α → α)

/-- `while (++to < base)`: the next free position, or the one of `base`, which is `left` ahead. -/
def nextFree (l : List α) : (slot left : Nat) → Nat
  | slot, 0 => slot
  | slot, left + 1 =>
      match l[slot]? with
      | none => slot
      | some x => if free x then slot else nextFree l (slot + 1) left

/-- The elements and the number of those in use, from a position on. -/
def loop (l : List α) (slot : Option Nat) (rem base : Nat) : (todo : Nat) → List α × Nat
  | 0 => (l, rem)
  | todo + 1 =>
      match l[base]? with
      | none => (l, rem)
      | some x =>
          -- save available space
          if free x then loop l (some (slot.getD base)) rem (base + 1) todo
          else
            match slot with
            | none => loop l none (rem + 1) (base + 1) todo
            | some slot =>
                let l := (l.set slot x).set base (clear x)
                loop l (some (nextFree free l (slot + 1) (base - (slot + 1)))) (rem + 1) (base + 1) todo

variable {free clear}

theorem nextFree_gap (front back : List α) {gaps : List α} (unused : ∀ z ∈ gaps, free z = true)
    {left : Nat} (size : left ≤ gaps.length) :
    nextFree free (front ++ gaps ++ back) front.length left = front.length := by
  cases left with
  | zero => rfl
  | succ left =>
      cases gaps with
      | nil => cases size
      | cons z gaps =>
          have here : (front ++ z :: gaps ++ back)[front.length]? = some z := by simp
          simp only [nextFree, here, unused z List.mem_cons_self, if_true]

/-- Behind the elements in front are gaps, and the elements in use that are left move there. -/
theorem loop_spec (cleared : ∀ x, free (clear x) = true) (todo front gaps : List α)
    (unused : ∀ z ∈ gaps, free z = true) :
    ∃ gaps', (∀ z ∈ gaps', free z = true) ∧
      loop free clear (front ++ gaps ++ todo) (if gaps = [] then none else some front.length)
        front.length (front.length + gaps.length) todo.length =
      (front ++ todo.filter (!free ·) ++ gaps', (front ++ todo.filter (!free ·)).length) := by
  induction todo generalizing front gaps with
  | nil => exact ⟨gaps, unused, by simp [loop]⟩
  | cons x todo ih =>
      have here : (front ++ gaps ++ x :: todo)[front.length + gaps.length]? = some x := by
        rw [← List.length_append]
        simp
      rw [List.length_cons, loop, here]
      by_cases dead : free x = true
      · obtain ⟨gaps', unused', step⟩ := ih front (gaps ++ [x]) (by
          intro z mem
          rcases List.mem_append.mp mem with mem | mem
          · exact unused z mem
          · rw [List.mem_singleton.mp mem]
            exact dead)
        refine ⟨gaps', unused', ?_⟩
        have first : some ((if gaps = [] then none else some front.length).getD
            (front.length + gaps.length)) = if gaps ++ [x] = [] then none else some front.length := by
          cases gaps <;> simp
        have skip : (x :: todo).filter (!free ·) = todo.filter (!free ·) := by simp [dead]
        simp only [if_pos dead]
        rw [first, skip, ← step]
        simp [Nat.add_assoc]
      · have keep : (x :: todo).filter (!free ·) = x :: todo.filter (!free ·) := by simp [dead]
        rw [keep]
        simp only [if_neg dead]
        cases gaps with
        | nil =>
            obtain ⟨gaps', unused', step⟩ := ih (front ++ [x]) [] nofun
            exact ⟨gaps', unused', by simpa using step⟩
        | cons z gaps =>
            -- the element moves to the first gap, and its own position becomes the last
            have moved : ((front ++ z :: gaps ++ x :: todo).set front.length x).set
                (front.length + (z :: gaps).length) (clear x) =
                  front ++ [x] ++ (gaps ++ [clear x]) ++ todo := by
              simp
            have still : ∀ y ∈ gaps ++ [clear x], free y = true := by
              intro y mem
              rcases List.mem_append.mp mem with mem | mem
              · exact unused y (List.mem_cons_of_mem z mem)
              · rw [List.mem_singleton.mp mem]
                exact cleared x
            have next : nextFree free (front ++ [x] ++ (gaps ++ [clear x]) ++ todo) (front.length + 1)
                (front.length + (z :: gaps).length - (front.length + 1)) = front.length + 1 := by
              have size : front.length + (z :: gaps).length - (front.length + 1) ≤
                  (gaps ++ [clear x]).length := by
                simp only [List.length_append, List.length_cons, List.length_nil]
                omega
              have gap := nextFree_gap (front ++ [x]) todo still size
              rwa [List.length_append] at gap
            obtain ⟨gaps', unused', step⟩ := ih (front ++ [x]) (gaps ++ [clear x]) still
            refine ⟨gaps', unused', ?_⟩
            simp only [reduceCtorEq, if_false, moved, next]
            simpa [Nat.add_assoc, Nat.add_comm, Nat.add_left_comm] using step

/-- The elements in use come to the front in their order, and no other is left behind them. -/
theorem loop_compacts (cleared : ∀ x, free (clear x) = true) (l : List α) :
    ∃ gaps, (∀ z ∈ gaps, free z = true) ∧
      loop free clear l none 0 0 l.length =
        (l.filter (!free ·) ++ gaps, (l.filter (!free ·)).length) := by
  have run := loop_spec cleared l [] [] nofun
  simpa using run

theorem length_loop (l : List α) (slot : Option Nat) (rem base todo : Nat) :
    (loop free clear l slot rem base todo).1.length = l.length := by
  induction todo generalizing l slot rem base with
  | zero => rfl
  | succ todo ih =>
      unfold loop
      cases l[base]? with
      | none => rfl
      | some x =>
          by_cases dead : free x = true
          · simp only [if_pos dead]
            exact ih ..
          · simp only [if_neg dead]
            cases slot with
            | none => exact ih ..
            | some slot =>
                rw [ih, List.length_set, List.length_set]

end Loop

/-! ## Pointers -/

/-- `!*base` -/
def null (p : Nat) : Bool := p == 0

/-- `mpt_array_compact` -/
def arrayCompact (base : List Nat) : List Nat × Nat := loop null (fun _ => 0) base none 0 0 base.length

theorem arrayCompact_eq (base : List Nat) :
    arrayCompact base = (base.filter (!null ·) ++ List.replicate (base.countP null) 0,
      (base.filter (!null ·)).length) := by
  have cleared : ∀ x : Nat, null ((fun _ => 0) x) = true := fun _ => rfl
  obtain ⟨gaps, unused, run⟩ := loop_compacts cleared base
  have run : arrayCompact base = (base.filter (!null ·) ++ gaps, (base.filter (!null ·)).length) := run
  have count : gaps.length = base.countP null := by
    have same : (arrayCompact base).1.length = base.length := length_loop ..
    have parts := List.length_eq_length_filter_add (l := base) null
    rw [run, List.length_append, parts] at same
    rw [List.countP_eq_length_filter]
    omega
  have zeros : gaps = List.replicate gaps.length 0 :=
    List.eq_replicate_iff.mpr ⟨rfl, fun z mem => eq_of_beq (unused z mem)⟩
  rw [run, ← count, ← zeros]

/-! ## Commands and bindings -/

open Event (Command Table Slots active)
open Plot (Mapping ValSrc LayDest mappingDel moveLoop)

/-- What is left of a command array: all commands that are active, and a new one behind them. -/
theorem reserve_keeps (env : Nat → Bool) (log_reply : Nat) (t : Table) {s : Slots} (buf : t.buf = some s)
    (n : Nat) :
    ∃ added, (t.reserve env log_reply (n + 1)).1.cmds = active s.cmds ++ added ∧
      added.length = (t.reserve env log_reply (n + 1)).2.toList.length := by
  have front := (Event.compaction_spec s.cmds).1
  unfold Table.reserve
  simp only [buf]
  split
  · exact ⟨[], by simpa only [Table.cmds, List.append_nil] using front, rfl⟩
  · rename_i mid _
    obtain ⟨t', done, after⟩ | ⟨t', failed, same, -⟩ := Event.appendRaw_cases env
      { t with buf := some { s with
        cmds := (Event.compaction s.cmds).cmds.take (Event.compaction s.cmds).used } }
      { s with cmds := (Event.compaction s.cmds).cmds.take (Event.compaction s.cmds).used }
      ⟨mid, log_reply, mid.toNat⟩
    · simp only [done]
      exact ⟨[⟨mid, log_reply, mid.toNat⟩], by rw [after, front], rfl⟩
    · simp only [failed]
      refine ⟨[], ?_, rfl⟩
      rw [List.append_nil, ← front]
      simp only [Table.cmds, same]

/-- The bindings that have states are left, if one was found. -/
theorem mappingDel_keeps (t : List Mapping) (src : Option ValSrc) (dst : Option LayDest) (cli : Int)
    (found : (mappingDel t src dst cli).2 ≠ 0) :
    (mappingDel t src dst cli).1 = (t.map fun map => (map.clear src dst cli).1).filter Mapping.live := by
  obtain ⟨rest, run⟩ := Plot.moveLoop_spec (t.map fun map => (map.clear src dst cli).1) [] [] nofun
  simp only [List.nil_append, List.length_nil, Nat.add_zero, if_true] at run
  unfold mappingDel at found ⊢
  by_cases none : ((t.map fun map => map.clear src dst cli).filter fun p => p.2).length = 0
  · simp only [if_pos none] at found
    exact absurd none found
  · simp only [if_neg none, List.map_map, Function.comp_def, run]
    rw [List.take_left' rfl]

/-- What is set stays in its order: pointers in front of null pointers, active commands in front of a
    new one, and bindings that have states. -/
theorem compacts (base : List Nat) (env : Nat → Bool) (log_reply : Nat) (t : Table) (n : Nat)
    (maps : List Mapping) (src : Option ValSrc) (dst : Option LayDest) (cli : Int) :
    arrayCompact base = (base.filter (!null ·) ++ List.replicate (base.countP null) 0,
      (base.filter (!null ·)).length) ∧
    (∀ s, t.buf = some s → ∃ added,
      (t.reserve env log_reply (n + 1)).1.cmds = active s.cmds ++ added ∧
        added.length = (t.reserve env log_reply (n + 1)).2.toList.length) ∧
    (moveLoop maps 0 0 none maps.length).1.take (moveLoop maps 0 0 none maps.length).2 =
      maps.filter Mapping.live ∧
    ((mappingDel maps src dst cli).2 ≠ 0 → (mappingDel maps src dst cli).1 =
      (maps.map fun map => (map.clear src dst cli).1).filter Mapping.live) := by
  refine ⟨arrayCompact_eq base, fun s buf => reserve_keeps env log_reply t buf n, ?_,
    mappingDel_keeps maps src dst cli⟩
  obtain ⟨rest, run⟩ := Plot.moveLoop_spec maps [] [] nofun
  simp only [List.nil_append, List.length_nil, Nat.add_zero, if_true] at run
  rw [run, List.take_left' rfl]

/-- The first binding of a client is deleted, and the second one takes its place. -/
theorem second_left :
    arrayCompact [0, 5, 0, 7] = ([5, 7, 0, 0], 2) ∧
      (mappingDel [⟨⟨1, 1⟩, 1, ⟨0, 0, 0, 0⟩⟩, ⟨⟨1, 1⟩, 1, ⟨0, 0, 1, 0⟩⟩] none (some ⟨0, 0, 0, 0⟩) 1).1 =
        [⟨⟨1, 1⟩, 1, ⟨0, 0, 1, 0⟩⟩] := by
  obtain ⟨pointers, -, -, bindings⟩ := compacts [0, 5, 0, 7] (fun _ => true) 1 .init 1
    [⟨⟨1, 1⟩, 1, ⟨0, 0, 0, 0⟩⟩, ⟨⟨1, 1⟩, 1, ⟨0, 0, 1, 0⟩⟩] none (some ⟨0, 0, 0, 0⟩) 1
  exact ⟨pointers, bindings (by decide)⟩

end Mpt.Compact
