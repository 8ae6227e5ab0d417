import Mathlib.Data.List.Basic
import Mathlib.Tactic.Common
import Mathlib.Tactic.Ring

/-! # Storage as a total function of the address

A block of storage is read and written through plain addresses, as pointer
arithmetic does it.  `Mem.read` takes a range out as a list and `Mem.write`
puts a list in; every copy of the C library is one read followed by one write.
Nothing here knows what is stored.
-/

namespace Mpt

/-- Storage of one allocation, indexed by address. -/
abbrev Mem (α : Type u) := Nat → α

namespace Mem

variable {α : Type u}

/-- The `n` cells starting at address `a`. -/
def read (m : Mem α) (a n : Nat) : List α := (List.range n).map fun i => m (a + i)

/-- Replace the cells starting at address `a` by those of `l`. -/
def write (m : Mem α) (a : Nat) (l : List α) : Mem α :=
  fun i => if a ≤ i then (l[i - a]?).getD (m i) else m i

/-- `memmove`/`memcpy`: the source range is read before the target is written. -/
def move (m : Mem α) (dst src n : Nat) : Mem α := m.write dst (m.read src n)

/-- A single cell assignment. -/
def set (m : Mem α) (a : Nat) (x : α) : Mem α := m.write a [x]

@[simp] theorem length_read (m : Mem α) (a n : Nat) : (m.read a n).length = n := by
  simp [read]

@[simp] theorem read_zero (m : Mem α) (a : Nat) : m.read a 0 = [] := rfl

theorem read_succ (m : Mem α) (a n : Nat) : m.read a (n + 1) = m a :: m.read (a + 1) n := by
  simp [read, List.range_succ_eq_map, Function.comp_def, Nat.add_assoc, Nat.add_comm 1]

theorem read_one (m : Mem α) (a : Nat) : m.read a 1 = [m a] := by
  simp [read_succ]

theorem getElem?_read (m : Mem α) (a n i : Nat) (h : i < n) :
    (m.read a n)[i]? = some (m (a + i)) := by
  simp [read, h]

@[simp] theorem getElem_read (m : Mem α) (a n i : Nat) (h : i < (m.read a n).length) :
    (m.read a n)[i] = m (a + i) := by
  simp [read]

theorem read_append (m : Mem α) (a n k : Nat) :
    m.read a (n + k) = m.read a n ++ m.read (a + n) k := by
  simp [read, List.range_add, Function.comp_def, Nat.add_assoc]

theorem take_read (m : Mem α) (a n k : Nat) : (m.read a n).take k = m.read a (min k n) := by
  simp [read, List.take_range, ← List.map_take]

theorem drop_read (m : Mem α) (a n k : Nat) (h : k ≤ n) :
    (m.read a n).drop k = m.read (a + k) (n - k) := by
  obtain ⟨j, rfl⟩ := Nat.exists_eq_add_of_le h
  rw [read_append, List.drop_left' (by simp)]
  simp

theorem read_congr {m m' : Mem α} {a n : Nat} (h : ∀ i, a ≤ i → i < a + n → m i = m' i) :
    m.read a n = m'.read a n := by
  apply List.map_congr_left
  intro i hi
  exact h (a + i) (by omega) (by have := List.mem_range.mp hi; omega)

theorem write_below (m : Mem α) (l : List α) (h : i < a) : m.write a l i = m i := by
  simp [write, show ¬ a ≤ i by omega]

theorem write_above (m : Mem α) (l : List α) (h : a + l.length ≤ i) : m.write a l i = m i := by
  simp [write, List.getElem?_eq_none (show l.length ≤ i - a by omega)]

theorem write_inside (m : Mem α) (a : Nat) (l : List α) (h : i < l.length) :
    m.write a l (a + i) = l[i] := by
  simp [write, h]

theorem write_outside (m : Mem α) (l : List α) (h : i < a ∨ a + l.length ≤ i) :
    m.write a l i = m i :=
  h.elim (write_below m l) (write_above m l)

@[simp] theorem write_nil (m : Mem α) (a : Nat) : m.write a [] = m := by
  funext i
  simp [write]

theorem write_append (m : Mem α) (a : Nat) (l l' : List α) :
    m.write a (l ++ l') = (m.write a l).write (a + l.length) l' := by
  funext i
  by_cases below : i < a + l.length
  · rw [write_below _ l' below]
    by_cases h : i < a
    · rw [write_below _ _ h, write_below _ _ h]
    · obtain ⟨j, rfl⟩ := Nat.exists_eq_add_of_le (show a ≤ i by omega)
      rw [write_inside _ _ _ (by simp; omega), write_inside _ _ _ (show j < l.length by omega),
        List.getElem_append_left]
  · obtain ⟨j, rfl⟩ := Nat.exists_eq_add_of_le (show a + l.length ≤ i by omega)
    by_cases h : j < l'.length
    · have pos : a + l.length + j = a + (l.length + j) := by omega
      rw [write_inside _ _ _ h, pos, write_inside _ _ _ (by simp; omega)]
      simp
    · rw [write_above _ _ (by simp; omega), write_above _ _ (by omega), write_above _ _ (by omega)]

theorem write_cons (m : Mem α) (a : Nat) (x : α) (l : List α) :
    m.write a (x :: l) = (m.set a x).write (a + 1) l :=
  write_append m a [x] l

@[simp] theorem set_self (m : Mem α) (a : Nat) (x : α) : m.set a x a = x := by
  simp [set, write]

theorem set_ne (m : Mem α) (x : α) (h : i ≠ a) : m.set a x i = m i := by
  apply write_outside
  simp
  omega

/-- Reading back exactly what was written. -/
@[simp] theorem read_write_self (m : Mem α) (a : Nat) (l : List α) :
    (m.write a l).read a l.length = l := by
  apply List.ext_getElem
  · simp
  · intro i h _
    simp only [getElem_read]
    exact write_inside m a l (by simpa using h)

theorem read_write_disjoint (m : Mem α) (l : List α) (h : b + n ≤ a ∨ a + l.length ≤ b) :
    (m.write a l).read b n = m.read b n := by
  apply read_congr
  intro i low high
  exact write_outside m l (by omega)

@[simp] theorem write_read (m : Mem α) (a n : Nat) : m.write a (m.read a n) = m := by
  funext i
  by_cases inside : a ≤ i ∧ i < a + n
  · obtain ⟨j, rfl⟩ := Nat.exists_eq_add_of_le inside.1
    rw [write_inside _ _ _ (by simp; omega), getElem_read]
  · exact write_outside _ _ (by simp; omega)

/-- A later write hides an earlier one that it covers. -/
theorem write_write_cover (m : Mem α) (l l' : List α) (low : b ≤ a)
    (high : a + l.length ≤ b + l'.length) : (m.write a l).write b l' = m.write b l' := by
  funext i
  by_cases inside : b ≤ i ∧ i < b + l'.length
  · obtain ⟨j, rfl⟩ := Nat.exists_eq_add_of_le inside.1
    rw [write_inside _ _ _ (by omega), write_inside _ _ _ (by omega)]
  · rw [write_outside _ l' (by omega), write_outside _ l' (by omega), write_outside _ l (by omega)]

theorem move_outside (m : Mem α) (h : i < dst ∨ dst + n ≤ i) : m.move dst src n i = m i :=
  write_outside _ _ (by simpa using h)

theorem move_inside (m : Mem α) (dst src : Nat) (h : i < n) :
    m.move dst src n (dst + i) = m (src + i) := by
  rw [move, write_inside _ _ _ (by simpa using h), getElem_read]

theorem read_move_self (m : Mem α) (dst src n : Nat) :
    (m.move dst src n).read dst n = m.read src n := by
  have := read_write_self m dst (m.read src n)
  rwa [length_read] at this

theorem read_move_disjoint (m : Mem α) (h : b + k ≤ dst ∨ dst + n ≤ b) :
    (m.move dst src n).read b k = m.read b k :=
  read_write_disjoint m _ (by simpa using h)

/-- Store values at a sequence of addresses. -/
def scatter (m : Mem α) : (addrs : List Nat) → (l : List α) → Mem α
  | a :: addrs, x :: l => scatter (m.set a x) addrs l
  | _, _ => m

@[simp] theorem scatter_nil (m : Mem α) (addrs : List Nat) : m.scatter addrs [] = m := by
  cases addrs <;> rfl

theorem scatter_append (m : Mem α) (addrs : List Nat) (l l' : List α) :
    m.scatter addrs (l ++ l') = (m.scatter addrs l).scatter (addrs.drop l.length) l' := by
  induction l generalizing m addrs with
  | nil => simp
  | cons x l ih =>
      cases addrs with
      | nil => cases l' <;> rfl
      | cons a addrs => exact ih (m.set a x) addrs

theorem scatter_outside (m : Mem α) (l : List α) {addrs : List Nat} {i : Nat}
    (h : i ∉ addrs.take l.length) : m.scatter addrs l i = m i := by
  induction l generalizing m addrs with
  | nil => simp
  | cons x l ih =>
      cases addrs with
      | nil => rfl
      | cons a addrs =>
          simp only [List.length_cons, List.take_succ_cons, List.mem_cons, not_or] at h
          rw [scatter, ih _ h.2, set_ne _ _ h.1]

/-- Addresses behind the ones stored to keep their values. -/
theorem map_scatter_behind (m : Mem α) {addrs : List Nat} (nodup : addrs.Nodup) (l : List α)
    {w k : Nat} (h : w + l.length ≤ k) :
    (addrs.drop k).map (m.scatter (addrs.drop w) l) = (addrs.drop k).map m := by
  apply List.map_congr_left
  intro a behind
  apply scatter_outside
  intro front
  have parts : addrs.drop w = (addrs.drop w).take l.length ++ addrs.drop (w + l.length) := by
    rw [← List.drop_drop, List.take_append_drop]
  have apart := nodup.sublist (List.drop_sublist w addrs)
  rw [parts] at apart
  refine (List.nodup_append.mp apart).2.2 a front a ?_ rfl
  obtain ⟨j, rfl⟩ := Nat.exists_eq_add_of_le h
  rw [← List.drop_drop] at behind
  exact List.mem_of_mem_drop behind

theorem map_scatter (m : Mem α) {addrs : List Nat} (nodup : addrs.Nodup) (l : List α)
    (fits : l.length ≤ addrs.length) :
    addrs.map (m.scatter addrs l) = l ++ (addrs.drop l.length).map m := by
  induction l generalizing m addrs with
  | nil => simp
  | cons x l ih =>
      cases addrs with
      | nil => simp at fits
      | cons a addrs =>
          simp only [List.nodup_cons] at nodup
          simp only [List.length_cons, Nat.add_le_add_iff_right] at fits
          have first : (m.set a x).scatter addrs l a = x := by
            rw [scatter_outside _ _ (fun h => nodup.1 (List.mem_of_mem_take h)), set_self]
          have rest : (addrs.drop l.length).map (m.set a x) = (addrs.drop l.length).map m := by
            apply List.map_congr_left
            intro b mem
            refine set_ne _ _ ?_
            rintro rfl
            exact nodup.1 (List.mem_of_mem_drop mem)
          rw [scatter, List.map_cons, first, ih _ nodup.2 fits, rest]
          rfl

/-- What was stored, together with the values in front of it. -/
theorem map_scatter_window (m : Mem α) {addrs : List Nat} (nodup : addrs.Nodup) (l : List α)
    {start n : Nat} (fits : start + n + l.length ≤ addrs.length) :
    ((addrs.drop start).take (n + l.length)).map (m.scatter (addrs.drop (start + n)) l) =
      ((addrs.drop start).take n).map m ++ l := by
  have front : ((addrs.drop start).take n).map (m.scatter (addrs.drop (start + n)) l) =
      ((addrs.drop start).take n).map m := by
    apply List.map_congr_left
    intro a before
    apply scatter_outside
    intro after
    have apart := nodup.sublist (List.drop_sublist start addrs)
    rw [← List.take_append_drop n (addrs.drop start), List.drop_drop] at apart
    exact (List.nodup_append.mp apart).2.2 a before a (List.mem_of_mem_take after) rfl
  have stored := map_scatter m (nodup.sublist (List.drop_sublist (start + n) addrs)) l
    (by rw [List.length_drop]; omega)
  have taken := congrArg (List.take l.length) stored
  rw [List.take_left, ← List.map_take] at taken
  rw [List.take_add, List.map_append, front, List.drop_drop, taken]

/-- Two states of the storage differ at most at the addresses in `S`. -/
def Only (S : Nat → Prop) (m m' : Mem α) : Prop := ∀ a, ¬ S a → m' a = m a

theorem only_refl (S : Nat → Prop) (m : Mem α) : Only S m m := fun _ _ => rfl

theorem Only.trans {S : Nat → Prop} {m m' m'' : Mem α} (first : Only S m m')
    (second : Only S m' m'') : Only S m m'' := by
  intro a outside
  rw [second a outside, first a outside]

theorem Only.mono {S T : Nat → Prop} {m m' : Mem α} (h : Only S m m') (le : ∀ a, S a → T a) :
    Only T m m' := by
  intro a outside
  apply h
  intro inside
  exact outside (le a inside)

theorem only_set {S : Nat → Prop} (m : Mem α) {a : Nat} (inside : S a) (x : α) :
    Only S m (m.set a x) := by
  intro b outside
  apply set_ne
  rintro rfl
  exact outside inside

end Mem

end Mpt
