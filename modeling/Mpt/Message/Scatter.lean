import Mpt.Message.Search

/-! # Copies between parts

The bytes of one list of parts are copied to another one.  Both lists have a part in
progress, and the shortest of what is left of these and of the bytes to copy is copied at
once.
-/

namespace Mpt

/-- A `size_t` as `ssize_t`. -/
def ssize (n : Nat) : Int := ((n : Int) + 2 ^ 63) % 2 ^ 64 - 2 ^ 63

theorem ssize_eq {n : Nat} (fits : n ≤ ssizeMax) : ssize n = n := by
  unfold ssize ssizeMax at *
  omega

namespace Search

/-- The loop of `mpt_memcpy`, with the rest of the current source and of the current target. -/
def copyLoop (m : Mem Byte) (len source left : Nat) (src : List Iovec) (target space : Nat)
    (dest : List Iovec) (total : Nat) : Mem Byte × Nat :=
  if len = 0 then (m, total)
  else if left = 0 then
    match src with
    | [] => (m, total)
    | v :: src => copyLoop m len v.base v.len src target space dest total
  else if space = 0 then
    match dest with
    | [] => (m, total)
    | v :: dest => copyLoop m len source left src v.base v.len dest total
  else
    let copy := min (min len left) space
    copyLoop (m.move target source copy) (len - copy) (source + copy) (left - copy) src
      (target + copy) (space - copy) dest (total + copy)
termination_by (src.length, dest.length, len)

/-- `mpt_memcpy`: a negative length is a large one for the loop. -/
def memcpy (m : Mem Byte) (len : Int) (src dest : List Iovec) : Mem Byte × Int :=
  match src, dest with
  | s :: src, d :: dest =>
      -- check maximum size
      if 0 < len ∧ ssize (size (s :: src)) < len then (m, -1)
      else if 0 < len ∧ ssize (size (d :: dest)) < len then (m, -2)
      else
        let (m, total) := copyLoop m (len % 2 ^ 64).toNat s.base s.len src d.base d.len dest 0
        (m, ssize total)
  | _, _ => (m, 0)

/-- The first `n` bytes of the target are those of the source, and nothing else has changed. -/
structure Copied (m m' : Mem Byte) (src dest : List Iovec) (n : Nat) : Prop where
  same : (joined m' dest).take n = (joined m src).take n
  rest : (joined m' dest).drop n = (joined m dest).drop n
  other : ∀ a, a ∉ flat dest → m' a = m a

/-- What a copy has to do. -/
structure Copies (m : Mem Byte) (len : Int) (src dest : List Iovec) : Prop where
  refused : 0 ≤ len → size src < len ∨ size dest < len →
    (memcpy m len src dest).2 < 0 ∧ (memcpy m len src dest).1 = m
  exactly : 0 ≤ len → len ≤ size src → len ≤ size dest →
    (memcpy m len src dest).2 = len ∧ Copied m (memcpy m len src dest).1 src dest len.toNat
  all : len < 0 → (memcpy m len src dest).2 = min (size src) (size dest) ∧
    Copied m (memcpy m len src dest).1 src dest (min (size src) (size dest))

/-- No byte of the target is there twice, or part of the source. -/
structure Apart (src dest : List Nat) : Prop where
  nodup : dest.Nodup
  apart : ∀ a ∈ src, a ∉ dest

section Addresses

variable (m : Mem Byte)

/-- Addresses behind the ones stored to do not matter. -/
theorem scatter_front (addrs more : List Nat) (l : List Byte) (fits : l.length = addrs.length) :
    m.scatter (addrs ++ more) l = m.scatter addrs l := by
  induction addrs generalizing m l with
  | nil =>
      rw [List.eq_nil_of_length_eq_zero fits, Mem.scatter_nil, Mem.scatter_nil]
  | cons a addrs ih =>
      cases l with
      | nil => cases fits
      | cons x l => exact ih _ l (Nat.succ.inj fits)

theorem write_scatter (a : Nat) (l : List Byte) :
    m.write a l = m.scatter (addresses a l.length) l := by
  induction l generalizing m a with
  | nil => simp
  | cons x l ih =>
      rw [Mem.write_cons, List.length_cons, addresses_succ, Mem.scatter, ih]

theorem move_scatter (target source n : Nat) :
    m.move target source n = m.scatter (addresses target n) ((addresses source n).map m) := by
  rw [Mem.move, write_scatter, Mem.length_read, map_addresses]

/-- One step of a copy from addresses to addresses. -/
theorem scatter_step {target source n len : Nat} {src dest : List Nat}
    (apart : Apart (addresses source n ++ src) (addresses target n ++ dest)) (enough : n ≤ len) :
    m.scatter (addresses target n ++ dest) (((addresses source n ++ src).take len).map m) =
      (m.move target source n).scatter dest ((src.take (len - n)).map (m.move target source n)) := by
  have unchanged : (src.take (len - n)).map (m.move target source n) = (src.take (len - n)).map m := by
    apply List.map_congr_left
    intro a mem
    rw [move_scatter]
    apply Mem.scatter_outside
    intro inside
    refine apart.apart a (List.mem_append_right _ (List.mem_of_mem_take mem)) ?_
    exact List.mem_append_left _ (List.mem_of_mem_take inside)
  rw [unchanged, List.take_append, List.take_of_length_le (by simpa using enough), List.map_append,
    Mem.scatter_append, scatter_front _ _ _ _ (by simp), ← move_scatter]
  congr 1
  · rw [List.length_map, length_addresses, List.drop_left' (length_addresses _ _)]
  · rw [length_addresses]

theorem split_addresses {base n k : Nat} (le : k ≤ n) :
    addresses base n = addresses base k ++ addresses (base + k) (n - k) := by
  rw [← addresses_add, Nat.add_sub_cancel' le]

end Addresses

/-- The loop copies from the addresses that are left in the source to those in the target. -/
theorem copyLoop_eq (m : Mem Byte) (len source left : Nat) (src : List Iovec) (target space : Nat)
    (dest : List Iovec) (total : Nat)
    (apart : Apart (addresses source left ++ flat src) (addresses target space ++ flat dest)) :
    copyLoop m len source left src target space dest total =
      (m.scatter (addresses target space ++ flat dest)
        (((addresses source left ++ flat src).take len).map m),
        total + min len (min (left + size src) (space + size dest))) := by
  fun_induction copyLoop m len source left src target space dest total with
  | case1 m source left src target space dest total => simp
  | case2 m len source target space dest total some => simp [size]
  | case3 m len source target space dest total some v src ih =>
      rw [ih (by simpa using apart)]
      simp
  | case4 m len source left src target total some more =>
      have none : flat ([] : List Iovec) = [] := rfl
      simp [none, size, Mem.scatter]
  | case5 m len source left src target total some more v dest ih =>
      rw [ih (by simpa using apart)]
      simp
  | case6 m len source left src target space dest total some more room copy ih =>
      have enough : copy ≤ left := Nat.le_trans (Nat.min_le_left _ _) (Nat.min_le_right _ _)
      have fits : copy ≤ space := Nat.min_le_right _ _
      have within : copy ≤ len := Nat.le_trans (Nat.min_le_left _ _) (Nat.min_le_left _ _)
      rw [split_addresses enough, split_addresses fits, List.append_assoc, List.append_assoc] at apart ⊢
      have rest : Apart (addresses (source + copy) (left - copy) ++ flat src)
          (addresses (target + copy) (space - copy) ++ flat dest) :=
        ⟨(List.nodup_append.mp apart.nodup).2.1, fun a mem inside =>
          apart.apart a (List.mem_append_right _ mem) (List.mem_append_right _ inside)⟩
      rw [ih rest, scatter_step m apart within]
      congr 1
      omega

/-- Values for which there is no address are not stored. -/
theorem scatter_take (m : Mem Byte) (addrs : List Nat) (l : List Byte) :
    m.scatter addrs l = m.scatter addrs (l.take addrs.length) := by
  induction addrs generalizing m l with
  | nil => cases l <;> rfl
  | cons a addrs ih =>
      cases l with
      | nil => rfl
      | cons x l => exact ih _ l

/-- The copy of the first bytes, as a whole. -/
theorem scatter_copied (m : Mem Byte) (src dest : List Iovec) (len : Nat)
    (apart : Apart (flat src) (flat dest)) {n : Nat} (eq : n = min len (min (size src) (size dest))) :
    Copied m (m.scatter (flat dest) (((flat src).take len).map m)) src dest n := by
  have sizes (data : List Iovec) : (flat data).length = size data := length_flat data
  have cut : (((flat src).take len).map m).take (flat dest).length = ((flat src).take n).map m := by
    rw [← List.map_take, List.take_take, sizes]
    by_cases short : min (size dest) len ≤ size src
    · rw [show n = min (size dest) len by omega]
    · rw [List.take_of_length_le (by rw [sizes]; omega), List.take_of_length_le (by rw [sizes]; omega)]
  have count : (((flat src).take n).map m).length = n := by
    rw [List.length_map, List.length_take, sizes]
    omega
  rw [scatter_take, cut]
  have stored := Mem.map_scatter m apart.nodup (((flat src).take n).map m) (by rw [count, sizes]; omega)
  refine ⟨?_, ?_, ?_⟩
  · rw [joined, stored, List.take_left' count, List.map_take]
    rfl
  · rw [joined, stored, List.drop_left' count, count, List.map_drop]
    rfl
  · intro a outside
    exact Mem.scatter_outside _ _ fun inside => outside (List.mem_of_mem_take inside)

/-- What `mpt_memcpy` does with parts on both sides, when the lengths are no error. -/
theorem memcpy_loop (m : Mem Byte) (len : Int) {src dest : List Iovec} (some_src : src ≠ [])
    (some_dest : dest ≠ []) (apart : Apart (flat src) (flat dest))
    (enough : 0 < len → len ≤ ssize (size src) ∧ len ≤ ssize (size dest)) :
    memcpy m len src dest =
      (m.scatter (flat dest) (((flat src).take (len % 2 ^ 64).toNat).map m),
        ssize (min (len % 2 ^ 64).toNat (min (size src) (size dest)))) := by
  obtain ⟨s, src, rfl⟩ := List.exists_cons_of_ne_nil some_src
  obtain ⟨d, dest, rfl⟩ := List.exists_cons_of_ne_nil some_dest
  simp only [memcpy]
  rw [if_neg (fun h => by have := (enough h.1).1; omega),
    if_neg (fun h => by have := (enough h.1).2; omega), copyLoop_eq _ _ _ _ _ _ _ _ _ apart]
  simp

/-- Between lists of parts that are not empty as many bytes are copied as are asked for, or, for a
    negative length, as many as there are on both sides.  Without parts nothing is copied. -/
theorem memcpy_copies (m : Mem Byte) (len : Int) (src dest : List Iovec)
    (apart : Apart (flat src) (flat dest)) (lower : -2 ^ 63 ≤ len)
    (fits : size src ≤ ssizeMax ∧ size dest ≤ ssizeMax) :
    (src = [] ∨ dest = [] → memcpy m len src dest = (m, 0)) ∧
      (src ≠ [] → dest ≠ [] → Copies m len src dest) := by
  refine ⟨?_, fun some_src some_dest => ⟨?_, ?_, ?_⟩⟩
  · rintro (rfl | rfl)
    · simp [memcpy]
    · cases src <;> simp [memcpy]
  · intro positive long
    obtain ⟨s, src, rfl⟩ := List.exists_cons_of_ne_nil some_src
    obtain ⟨d, dest, rfl⟩ := List.exists_cons_of_ne_nil some_dest
    simp only [memcpy, ssize_eq fits.1, ssize_eq fits.2]
    by_cases source : ((size (s :: src) : Nat) : Int) < len
    · rw [if_pos ⟨by omega, source⟩]
      exact ⟨(by decide : (-1 : Int) < 0), rfl⟩
    · have target := long.resolve_left source
      rw [if_neg (fun h => source h.2), if_pos ⟨by omega, target⟩]
      exact ⟨(by decide : (-2 : Int) < 0), rfl⟩
  · intro positive source target
    have value : (len % 2 ^ 64).toNat = len.toNat := by
      unfold ssizeMax at fits
      omega
    have count : min len.toNat (min (size src) (size dest)) = len.toNat := by omega
    rw [memcpy_loop m len some_src some_dest apart fun _ => by
      rw [ssize_eq fits.1, ssize_eq fits.2]
      exact ⟨source, target⟩]
    simp only [value, count]
    refine ⟨?_, scatter_copied m src dest len.toNat apart count.symm⟩
    rw [ssize_eq (by omega), Int.toNat_of_nonneg positive]
  · intro negative
    have value : min (len % 2 ^ 64).toNat (min (size src) (size dest)) =
        min (size src) (size dest) := by
      unfold ssizeMax at fits
      omega
    rw [memcpy_loop m len some_src some_dest apart fun positive => by omega]
    simp only [value]
    refine ⟨?_, scatter_copied m src dest _ apart value.symm⟩
    rw [ssize_eq (by omega)]

/-- Three bytes of two parts go to one. -/
theorem memcpy_copies_parts :
    ([⟨0, 1⟩, ⟨4, 2⟩] = ([] : List Iovec) ∨ [⟨8, 4⟩] = ([] : List Iovec) →
      memcpy UInt8.ofNat 3 [⟨0, 1⟩, ⟨4, 2⟩] [⟨8, 4⟩] = (UInt8.ofNat, 0)) ∧
    ([⟨0, 1⟩, ⟨4, 2⟩] ≠ ([] : List Iovec) → [⟨8, 4⟩] ≠ ([] : List Iovec) →
      Copies UInt8.ofNat 3 [⟨0, 1⟩, ⟨4, 2⟩] [⟨8, 4⟩]) :=
  memcpy_copies UInt8.ofNat 3 [⟨0, 1⟩, ⟨4, 2⟩] [⟨8, 4⟩] ⟨by decide, by decide⟩ (by decide)
    ⟨by simp [size, ssizeMax], by simp [size, ssizeMax]⟩

/-- A length above that of an empty list is no error. -/
theorem memcpy_no_parts : ¬ ∀ (m : Mem Byte) (len : Int) (src dest : List Iovec),
    Apart (flat src) (flat dest) → Copies m len src dest := by
  intro all
  have copies := all (fun _ => 0) 1 [] [⟨0, 1⟩] ⟨by decide, by decide⟩
  have refused := (copies.refused (by decide) (.inl (by decide))).1
  revert refused
  decide

end Search

end Mpt
