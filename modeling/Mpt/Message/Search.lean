import Mpt.Message.Fragments
import Mathlib.Data.List.Induction

/-! # Searching in parts

A position is found inside of a part, and the lengths of the parts before it are added
afterwards.  What comes out is the position in the joined bytes.
-/

namespace Mpt

section Positions

variable {α : Type u} {p : α → Bool} {l l' : List α} {i : Nat}

/-- The first element that is accepted is at position `i`. -/
def FirstAt (p : α → Bool) (l : List α) (i : Nat) : Prop :=
  (∃ x, l[i]? = some x ∧ p x = true) ∧ ∀ j x, j < i → l[j]? = some x → p x = false

/-- The last element that is accepted is at position `i`. -/
def LastAt (p : α → Bool) (l : List α) (i : Nat) : Prop :=
  (∃ x, l[i]? = some x ∧ p x = true) ∧ ∀ j x, i < j → l[j]? = some x → p x = false

/-- No element is accepted. -/
def Absent (p : α → Bool) (l : List α) : Prop := ∀ x ∈ l, p x = false

theorem Absent.append (left : Absent p l) (right : Absent p l') : Absent p (l ++ l') := by
  intro x mem
  rcases List.mem_append.mp mem with mem | mem
  · exact left x mem
  · exact right x mem

theorem FirstAt.lt (first : FirstAt p l i) : i < l.length := by
  obtain ⟨x, at_i, _⟩ := first.1
  exact (List.getElem?_eq_some_iff.mp at_i).1

theorem LastAt.lt (last : LastAt p l i) : i < l.length := by
  obtain ⟨x, at_i, _⟩ := last.1
  exact (List.getElem?_eq_some_iff.mp at_i).1

theorem FirstAt.append (first : FirstAt p l i) : FirstAt p (l ++ l') i := by
  have lt := first.lt
  obtain ⟨⟨x, at_i, accepted⟩, earlier⟩ := first
  refine ⟨⟨x, by rw [List.getElem?_append_left lt, at_i], accepted⟩, ?_⟩
  intro j y before at_j
  rw [List.getElem?_append_left (by omega)] at at_j
  exact earlier j y before at_j

theorem FirstAt.behind (absent : Absent p l) (first : FirstAt p l' i) :
    FirstAt p (l ++ l') (l.length + i) := by
  obtain ⟨⟨x, at_i, accepted⟩, earlier⟩ := first
  refine ⟨⟨x, by simpa [List.getElem?_append_right] using at_i, accepted⟩, ?_⟩
  intro j y before at_j
  by_cases inside : j < l.length
  · rw [List.getElem?_append_left inside] at at_j
    exact absent y (List.mem_of_getElem? at_j)
  · rw [List.getElem?_append_right (by omega)] at at_j
    exact earlier (j - l.length) y (by omega) at_j

theorem LastAt.before (last : LastAt p l i) (absent : Absent p l') : LastAt p (l ++ l') i := by
  have lt := last.lt
  obtain ⟨⟨x, at_i, accepted⟩, later⟩ := last
  refine ⟨⟨x, by rw [List.getElem?_append_left lt, at_i], accepted⟩, ?_⟩
  intro j y behind at_j
  by_cases inside : j < l.length
  · rw [List.getElem?_append_left inside] at at_j
    exact later j y behind at_j
  · rw [List.getElem?_append_right (by omega)] at at_j
    exact absent y (List.mem_of_getElem? at_j)

theorem LastAt.behind (last : LastAt p l' i) : LastAt p (l ++ l') (l.length + i) := by
  obtain ⟨⟨x, at_i, accepted⟩, later⟩ := last
  refine ⟨⟨x, by simpa [List.getElem?_append_right] using at_i, accepted⟩, ?_⟩
  intro j y behind at_j
  rw [List.getElem?_append_right (by omega)] at at_j
  exact later (j - l.length) y (by omega) at_j

theorem firstAt_of_findIdx? (found : l.findIdx? p = some i) : FirstAt p l i := by
  obtain ⟨lt, accepted, earlier⟩ := List.findIdx?_eq_some_iff_getElem.mp found
  refine ⟨⟨l[i], List.getElem?_eq_getElem lt, accepted⟩, ?_⟩
  intro j x before at_j
  obtain ⟨inside, rfl⟩ := List.getElem?_eq_some_iff.mp at_j
  simpa using earlier j before

theorem absent_of_findIdx? (none : l.findIdx? p = none) : Absent p l := by
  intro x mem
  simpa using List.findIdx?_eq_none_iff.mp none x mem

end Positions

/-- `SSIZE_MAX` -/
def ssizeMax : Nat := 2 ^ 63 - 1

/-- A sum of two `size_t`. -/
def sizeAdd (a b : Nat) : Nat := (a + b) % 2 ^ 64

namespace Search

variable (m : Mem Byte)

/-- `data[i]` -/
def part (data : List Iovec) (i : Nat) : Iovec := data.getD i ⟨0, 0⟩

/-- Add the lengths of the parts before part `i`, the nearest first. -/
def sumDown (data : List Iovec) (pos : Nat) : (i : Nat) → Option Nat
  | 0 => some pos
  | i + 1 =>
      if sizeAdd pos (part data i).len > ssizeMax then none
      else sumDown data (sizeAdd pos (part data i).len) i

/-- Add the lengths of the last `left` parts before part `i`, from the start on. -/
def sumUp (data : List Iovec) (i pos : Nat) : (left : Nat) → Option Nat
  | 0 => some pos
  | left + 1 =>
      if sizeAdd pos (part data (i - (left + 1))).len > ssizeMax then none
      else sumUp data i (sizeAdd pos (part data (i - (left + 1))).len) left

/-- The position, or `EOVERFLOW`. -/
def position : Option Nat → Int
  | some pos => pos
  | none => -1

/-- The loop of `mpt_memchr`. -/
def chrLoop (data : List Iovec) (tok : Byte) (i : Nat) : (ndat : Nat) → Int
  | 0 => -2
  | ndat + 1 =>
      let v := part data i
      match if v.len = 0 then none else (m.read v.base v.len).findIdx? (· == tok) with
      | some pos => position (sumDown data pos i)
      | none => chrLoop data tok (i + 1) ndat

/-- `mpt_memchr` -/
def memchr (data : List Iovec) (tok : Int) : Int := chrLoop m data (.ofInt tok) 0 data.length

/-- Look at the `left` bytes at `base` from the last one on. -/
def scanBack (accept : Byte → Bool) (base : Nat) : (left : Nat) → Option Nat
  | 0 => none
  | left + 1 => if accept (m (base + left)) then some left else scanBack accept base left

/-- The loop of `mpt_memrchr`. -/
def rchrLoop (data : List Iovec) (tok : Byte) : (i : Nat) → Int
  | 0 => -2
  | i + 1 =>
      match scanBack m (· == tok) (part data i).base (part data i).len with
      | some ndat => position (sumDown data ndat i)
      | none => rchrLoop data tok i

/-- `mpt_memrchr` -/
def memrchr (data : List Iovec) (tok : Int) : Int := rchrLoop m data (.ofInt tok) data.length

/-- Look at the `left` bytes from `pos` on.  The result is the position behind the match. -/
def scanOn (accept : Byte → Bool) (base pos : Nat) : (left : Nat) → Option Nat
  | 0 => none
  | left + 1 =>
      if accept (m (base + pos)) then some (pos + 1) else scanOn accept base (pos + 1) left

/-- The loop of `mpt_memfcn`. -/
def fcnLoop (data : List Iovec) (fcn : Byte → Bool) (i : Nat) : (left : Nat) → Int
  | 0 => -2
  | left + 1 =>
      match scanOn m fcn (part data i).base 0 (part data i).len with
      | some pos => position ((sumUp data i pos i).map (· - 1))
      | none => fcnLoop data fcn (i + 1) left

/-- `mpt_memfcn`: without data or function it fails (`EFAULT`). -/
def memfcn (data : Option (List Iovec)) (fcn : Option (Byte → Bool)) : Int :=
  match data, fcn with
  | some data, some fcn => fcnLoop m data fcn 0 data.length
  | _, _ => -1

/-- The loop of `mpt_memrfcn`. -/
def rfcnLoop (data : List Iovec) (fcn : Byte → Bool) : (i : Nat) → Int
  | 0 => -2
  | i + 1 =>
      match scanBack m fcn (part data i).base (part data i).len with
      | some pos => position (sumUp data i pos i)
      | none => rfcnLoop data fcn i

/-- `mpt_memrfcn` -/
def memrfcn (data : Option (List Iovec)) (fcn : Option (Byte → Bool)) : Int :=
  match data, fcn with
  | some data, some fcn => rfcnLoop m data fcn data.length
  | _, _ => -1

/-- `memchr_wrap` -/
def memchrWrap (tokens : List Byte) (curr : Byte) : Bool := tokens.contains curr

/-- `mpt_memstr`: a null pointer to the tokens fails (`EFAULT`). -/
def memstr (data : Option (List Iovec)) (tokens : Option (List Byte)) (mlen : Nat) : Int :=
  if mlen = 0 then 0
  else
    match tokens with
    | none => -1
    | some tokens => memfcn m data (some (memchrWrap (tokens.take mlen)))

/-- `mpt_memrstr` -/
def memrstr (data : Option (List Iovec)) (tokens : Option (List Byte)) (mlen : Nat) : Int :=
  if mlen = 0 then 0
  else
    match tokens with
    | none => -1
    | some tokens => memrfcn m data (some (memchrWrap (tokens.take mlen)))

/-- What a search for the first match has to answer. -/
def FindsFirst (accept : Byte → Bool) (l : List Byte) (r : Int) : Prop :=
  (∃ i : Nat, r = i ∧ FirstAt accept l i) ∨ (r = -2 ∧ Absent accept l)

/-- What a search for the last match has to answer. -/
def FindsLast (accept : Byte → Bool) (l : List Byte) (r : Int) : Prop :=
  (∃ i : Nat, r = i ∧ LastAt accept l i) ∨ (r = -2 ∧ Absent accept l)

/-- The number of bytes in all parts. -/
def size (data : List Iovec) : Nat := (data.map Iovec.len).sum

/-- The joined bytes of the parts. -/
def joined (data : List Iovec) : List Byte := (flat data).map m

section Sizes

@[simp] theorem size_append (data rest : List Iovec) : size (data ++ rest) = size data + size rest := by
  simp [size]

@[simp] theorem size_cons (v : Iovec) (rest : List Iovec) : size (v :: rest) = v.len + size rest := rfl

@[simp] theorem joined_append (data rest : List Iovec) :
    joined m (data ++ rest) = joined m data ++ joined m rest := by
  simp [joined, flat, List.flatMap_append]

@[simp] theorem joined_cons (v : Iovec) (rest : List Iovec) :
    joined m (v :: rest) = m.read v.base v.len ++ joined m rest := by
  rw [joined, flat_cons, List.map_append, map_addresses]
  rfl

@[simp] theorem length_joined (data : List Iovec) : (joined m data).length = size data := by
  induction data with
  | nil => rfl
  | cons v rest ih => simp [ih]

theorem sizeAdd_eq (fits : a + b ≤ ssizeMax) : sizeAdd a b = a + b := by
  unfold sizeAdd ssizeMax at *
  exact Nat.mod_eq_of_lt (by omega)

theorem part_append (before : List Iovec) (v : Iovec) (rest : List Iovec) :
    part (before ++ v :: rest) before.length = v := by
  simp [part]

theorem sumDown_eq (before rest : List Iovec) (pos : Nat) (fits : pos + size before ≤ ssizeMax) :
    sumDown (before ++ rest) pos before.length = some (size before + pos) := by
  induction before using List.reverseRecOn generalizing rest pos with
  | nil => simp [sumDown, size]
  | append_singleton before v ih =>
      have sum : size (before ++ [v]) = size before + v.len := by simp [size]
      have fits' : pos + v.len ≤ ssizeMax := by omega
      rw [List.append_assoc, List.length_append, List.length_singleton, List.singleton_append]
      rw [sumDown, part_append, sizeAdd_eq fits', if_neg (by omega)]
      rw [ih _ _ (by omega), sum]
      congr 1
      omega

theorem sumUp_eq (before between rest : List Iovec) (pos : Nat)
    (fits : pos + size between ≤ ssizeMax) :
    sumUp (before ++ (between ++ rest)) (before.length + between.length) pos between.length =
      some (size between + pos) := by
  induction between generalizing before pos with
  | nil => simp [sumUp, size]
  | cons v between ih =>
      rw [size_cons] at fits
      have index : before.length + (between.length + 1) - (between.length + 1) = before.length := by
        omega
      rw [List.length_cons, sumUp, index, List.cons_append, part_append,
        sizeAdd_eq (by omega), if_neg (by omega)]
      have next := ih (before ++ [v]) (pos + v.len) (by omega)
      rw [List.append_assoc, List.singleton_append, List.length_append, List.length_singleton,
        Nat.add_right_comm] at next
      rw [← Nat.add_assoc, next, size_cons]
      congr 1
      omega

theorem sumUp_front (before rest : List Iovec) (pos : Nat) (fits : pos + size before ≤ ssizeMax) :
    sumUp (before ++ rest) before.length pos before.length = some (size before + pos) := by
  have sum := sumUp_eq [] before rest pos fits
  rwa [List.nil_append, List.length_nil, Nat.zero_add] at sum

end Sizes

section Scans

theorem scanOn_eq (accept : Byte → Bool) (base pos left : Nat) :
    scanOn m accept base pos left =
      ((m.read (base + pos) left).findIdx? accept).map fun i => pos + i + 1 := by
  induction left generalizing pos with
  | zero => rfl
  | succ left ih =>
      rw [scanOn, Mem.read_succ, List.findIdx?_cons, ih]
      split
      · rfl
      · rw [Option.map_map, Nat.add_assoc base]
        congr 1
        funext i
        show pos + 1 + i + 1 = pos + (i + 1) + 1
        omega

theorem scanBack_spec (accept : Byte → Bool) (base left : Nat) :
    match scanBack m accept base left with
    | some i => LastAt accept (m.read base left) i
    | none => Absent accept (m.read base left) := by
  induction left with
  | zero =>
      intro x mem
      cases mem
  | succ left ih =>
      rw [scanBack, Mem.read_append, Mem.read_one]
      by_cases accepted : accept (m (base + left)) = true
      · rw [if_pos accepted]
        refine ⟨⟨m (base + left), by simp, accepted⟩, ?_⟩
        intro j x behind at_j
        rw [List.getElem?_eq_none (by simp; omega)] at at_j
        cases at_j
      · rw [if_neg accepted]
        have last : Absent accept [m (base + left)] := by
          intro x mem
          rw [List.mem_singleton.mp mem]
          simpa using accepted
        cases found : scanBack m accept base left with
        | some i =>
            rw [found] at ih
            exact LastAt.before ih last
        | none =>
            rw [found] at ih
            exact Absent.append ih last

end Scans

section Loops

variable (accept : Byte → Bool)

/-- A match in the current part, seen from all parts. -/
theorem first_here (before rest : List Iovec) (v : Iovec) (absent : Absent accept (joined m before))
    (first : FirstAt accept (m.read v.base v.len) i) :
    FirstAt accept (joined m (before ++ v :: rest)) (size before + i) := by
  have first' : FirstAt accept (m.read v.base v.len ++ joined m rest) i := first.append
  have := FirstAt.behind absent first'
  rwa [length_joined, ← joined_cons, ← joined_append] at this

theorem last_here (before rest : List Iovec) (v : Iovec) (absent : Absent accept (joined m rest))
    (last : LastAt accept (m.read v.base v.len) i) :
    LastAt accept (joined m (before ++ v :: rest)) (size before + i) := by
  have := LastAt.behind (l := joined m before) (last.before absent)
  rwa [length_joined, ← joined_cons, ← joined_append] at this

/-- A part without a match joins those before it. -/
theorem absent_next (before : List Iovec) (v : Iovec) (absent : Absent accept (joined m before))
    (none : (m.read v.base v.len).findIdx? accept = none) :
    Absent accept (joined m (before ++ [v])) := by
  have here : Absent accept (joined m [v]) := by
    have single : joined m [v] = m.read v.base v.len := by
      rw [joined_cons]
      exact List.append_nil _
    rw [single]
    exact absent_of_findIdx? none
  rw [joined_append]
  exact absent.append here

theorem chrLoop_first (tok : Byte) (before rest : List Iovec)
    (absent : Absent (· == tok) (joined m before)) (fits : size (before ++ rest) < ssizeMax) :
    FindsFirst (· == tok) (joined m (before ++ rest))
      (chrLoop m (before ++ rest) tok before.length rest.length) := by
  induction rest generalizing before with
  | nil =>
      rw [List.append_nil]
      exact .inr ⟨rfl, absent⟩
  | cons v rest ih =>
      rw [List.length_cons, chrLoop, part_append]
      -- an empty part has no match
      have skip : (if v.len = 0 then none else (m.read v.base v.len).findIdx? (· == tok)) =
          (m.read v.base v.len).findIdx? (· == tok) := by
        split
        · rename_i empty
          rw [empty]
          rfl
        · rfl
      simp only [skip]
      rw [size_append, size_cons] at fits
      cases found : (m.read v.base v.len).findIdx? (· == tok) with
      | some pos =>
          have first := firstAt_of_findIdx? found
          have inside := first.lt
          rw [Mem.length_read] at inside
          refine .inl ⟨size before + pos, ?_, first_here m _ before rest v absent first⟩
          show position (sumDown _ pos before.length) = _
          rw [sumDown_eq _ _ _ (by omega)]
          rfl
      | none =>
          have further := ih (before ++ [v])
          rw [List.append_assoc, List.singleton_append, List.length_append,
            List.length_singleton] at further
          refine further (absent_next m _ before v absent found) ?_
          rw [size_append, size_cons]
          exact fits

theorem fcnLoop_first (before rest : List Iovec) (absent : Absent accept (joined m before))
    (fits : size (before ++ rest) < ssizeMax) :
    FindsFirst accept (joined m (before ++ rest))
      (fcnLoop m (before ++ rest) accept before.length rest.length) := by
  induction rest generalizing before with
  | nil =>
      rw [List.append_nil]
      exact .inr ⟨rfl, absent⟩
  | cons v rest ih =>
      rw [List.length_cons, fcnLoop, part_append, scanOn_eq, Nat.add_zero]
      rw [size_append, size_cons] at fits
      cases found : (m.read v.base v.len).findIdx? accept with
      | some pos =>
          have first := firstAt_of_findIdx? found
          have inside := first.lt
          rw [Mem.length_read] at inside
          refine .inl ⟨size before + pos, ?_, first_here m _ before rest v absent first⟩
          have sum := sumUp_front before (v :: rest) (pos + 1) (by omega)
          simp only [Option.map_some, Nat.zero_add, sum]
          show ((size before + (pos + 1) - 1 : Nat) : Int) = _
          omega
      | none =>
          have further := ih (before ++ [v])
          rw [List.append_assoc, List.singleton_append, List.length_append,
            List.length_singleton] at further
          refine further (absent_next m _ before v absent found) ?_
          rw [size_append, size_cons]
          exact fits

theorem rchrLoop_last (tok : Byte) (before rest : List Iovec)
    (absent : Absent (· == tok) (joined m rest)) (fits : size (before ++ rest) < ssizeMax) :
    FindsLast (· == tok) (joined m (before ++ rest))
      (rchrLoop m (before ++ rest) tok before.length) := by
  induction before using List.reverseRecOn generalizing rest with
  | nil => exact .inr ⟨rfl, absent⟩
  | append_singleton before v ih =>
      rw [List.append_assoc, List.singleton_append] at fits ⊢
      rw [List.length_append, List.length_singleton, rchrLoop, part_append]
      have spec := scanBack_spec m (· == tok) v.base v.len
      cases found : scanBack m (· == tok) v.base v.len with
      | some pos =>
          rw [found] at spec
          have inside := LastAt.lt spec
          rw [Mem.length_read] at inside
          refine .inl ⟨size before + pos, ?_, last_here m _ before rest v absent spec⟩
          rw [size_append, size_cons] at fits
          show position (sumDown _ pos before.length) = _
          rw [sumDown_eq _ _ _ (by omega)]
          rfl
      | none =>
          rw [found] at spec
          refine ih (v :: rest) ?_ fits
          rw [joined_cons]
          exact Absent.append spec absent

theorem rfcnLoop_last (before rest : List Iovec) (absent : Absent accept (joined m rest))
    (fits : size (before ++ rest) < ssizeMax) :
    FindsLast accept (joined m (before ++ rest))
      (rfcnLoop m (before ++ rest) accept before.length) := by
  induction before using List.reverseRecOn generalizing rest with
  | nil => exact .inr ⟨rfl, absent⟩
  | append_singleton before v ih =>
      rw [List.append_assoc, List.singleton_append] at fits ⊢
      rw [List.length_append, List.length_singleton, rfcnLoop, part_append]
      have spec := scanBack_spec m accept v.base v.len
      cases found : scanBack m accept v.base v.len with
      | some pos =>
          rw [found] at spec
          have inside := LastAt.lt spec
          rw [Mem.length_read] at inside
          refine .inl ⟨size before + pos, ?_, last_here m _ before rest v absent spec⟩
          rw [size_append, size_cons] at fits
          have sum := sumUp_front before (v :: rest) pos (by omega)
          simp only [sum]
          rfl
      | none =>
          rw [found] at spec
          refine ih (v :: rest) ?_ fits
          rw [joined_cons]
          exact Absent.append spec absent

end Loops

/-- A search in the parts is a search in the joined bytes: each of the functions finds the first
    or the last byte that matches. -/
theorem search_joined (data : List Iovec) (fits : size data < ssizeMax) (tok : Int)
    (fcn : Byte → Bool) (tokens : List Byte) (some_token : tokens ≠ []) :
    (FindsFirst (· == .ofInt tok) (joined m data) (memchr m data tok) ∧
      FindsLast (· == .ofInt tok) (joined m data) (memrchr m data tok)) ∧
    (FindsFirst fcn (joined m data) (memfcn m (some data) (some fcn)) ∧
      FindsLast fcn (joined m data) (memrfcn m (some data) (some fcn))) ∧
    (FindsFirst (· ∈ tokens) (joined m data) (memstr m (some data) (some tokens) tokens.length) ∧
      FindsLast (· ∈ tokens) (joined m data) (memrstr m (some data) (some tokens) tokens.length)) := by
  have nothing (accept : Byte → Bool) : Absent accept (joined m []) := by
    intro x mem
    cases mem
  have behind := List.append_nil data
  have first (accept : Byte → Bool) : FindsFirst accept (joined m data)
      (memfcn m (some data) (some accept)) := fcnLoop_first m accept [] data (nothing _) fits
  have last (accept : Byte → Bool) : FindsLast accept (joined m data)
      (memrfcn m (some data) (some accept)) := by
    have := rfcnLoop_last m accept data [] (nothing _) (by rwa [behind])
    rwa [behind] at this
  have some_len : ¬ tokens.length = 0 := by
    intro none
    exact some_token (List.length_eq_zero_iff.mp none)
  have wrap : memchrWrap (tokens.take tokens.length) = fun b => decide (b ∈ tokens) := by
    funext b
    simp [memchrWrap]
  refine ⟨⟨chrLoop_first m _ [] data (nothing _) fits, ?_⟩, ⟨first fcn, last fcn⟩, ?_, ?_⟩
  · have := rchrLoop_last m (.ofInt tok) data [] (nothing _) (by rwa [behind])
    rwa [behind] at this
  · simp only [memstr, if_neg some_len, wrap]
    exact first _
  · simp only [memrstr, if_neg some_len, wrap]
    exact last _

/-- The last 3 is behind an empty part. -/
theorem search_joined_parts :
    FindsLast (· == .ofInt 3) (joined UInt8.ofNat [⟨3, 2⟩, ⟨0, 0⟩, ⟨2, 2⟩])
      (memrchr UInt8.ofNat [⟨3, 2⟩, ⟨0, 0⟩, ⟨2, 2⟩] 3) :=
  (search_joined UInt8.ofNat [⟨3, 2⟩, ⟨0, 0⟩, ⟨2, 2⟩] (by simp [size, ssizeMax]) 3 (fun _ => true) [0]
    (List.cons_ne_nil _ _)).1.2

end Search

end Mpt
