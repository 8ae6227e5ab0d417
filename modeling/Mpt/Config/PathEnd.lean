import Mpt.Config.PathSplit

/-! # The last element of a path

`mpt_path_last` looks for the last element from the end on, where `mpt_path_next` comes to
it from the start.
-/

namespace Mpt.Config.Path

/-- What `mpt_path_last` returns. -/
def lastRet (p : Path) : Int :=
  match p.last with
  | none => -2
  | some _ =>
      if p.sepBinary then (p.mem (p.len - 2)).toNat
      else toInt (lastScan p.mem p.sep (p.len - 1) 0).2

/-- The path after several calls of `mpt_path_next`. -/
def nexts (p : Path) : Nat → Path
  | 0 => p
  | n + 1 => p.next.1.nexts n

/-- The path has these elements in its format. -/
structure Lists (p : Path) (els : List (List Byte)) : Prop where
  base : p.base ≠ .null
  text : p.sepBinary = false → TextRep p els
  binary : p.sepBinary = true → BinaryRep p els

/-- `mpt_path_last` leaves the element that comes last, which is the one behind `n` others. -/
def Reduces (p : Path) (n : Nat) : Prop :=
  ∃ q, p.last = some q ∧ q.off = (p.nexts n).off ∧ q.len = (p.nexts n).len ∧
    (p.nexts n).nextInt.2 = .ok p.lastRet ∧ q.nextInt.2 = .ok p.lastRet

/-- The last `len` of the first `n` bytes are what is behind their last separator. -/
structure EndsWith (m : Mem Byte) (sep : Byte) (n len : Nat) : Prop where
  inside : len ≤ n
  free : ∀ i, n - len ≤ i → i < n → m i ≠ sep
  border : n = len ∨ m (n - len - 1) = sep

section Scan

variable (m : Mem Byte) (sep : Byte)

/-- The scan of `mpt_path_last` stops behind the last separator. -/
theorem lastScan_spec (pos k : Nat) :
    ∃ i ≤ pos, lastScan m sep pos k = (i, k + (pos - i)) ∧ EndsWith m sep pos (pos - i) := by
  induction pos generalizing k with
  | zero => exact ⟨0, Nat.le_refl 0, rfl, ⟨Nat.le_refl 0, fun i _ inside => by omega, .inl rfl⟩⟩
  | succ pos ih =>
      rw [lastScan]
      by_cases here : m pos = sep
      · rw [if_pos here]
        refine ⟨pos + 1, Nat.le_refl _, by simp, by omega, fun i low high => by omega, .inr ?_⟩
        simpa using here
      · rw [if_neg here]
        obtain ⟨i, le, eq, _, free, border⟩ := ih (k + 1)
        refine ⟨i, by omega, ?_, by omega, ?_, ?_⟩
        · rw [eq]
          congr 1
          omega
        · intro j low high
          by_cases last : j = pos
          · rw [last]
            exact here
          · exact free j (by omega) (by omega)
        · rcases border with whole | border
          · exact .inl (by omega)
          · refine .inr ?_
            rw [show pos + 1 - (pos + 1 - i) - 1 = pos - (pos - i) - 1 by omega]
            exact border

variable {m sep}

/-- There is one place behind the last separator. -/
theorem EndsWith.unique {n a b : Nat} (ha : EndsWith m sep n a) (hb : EndsWith m sep n b) : a = b := by
  have le {a b : Nat} (ha : EndsWith m sep n a) (hb : EndsWith m sep n b) : a ≤ b := by
    by_contra less
    rcases hb.border with whole | border
    · have := ha.inside
      omega
    · have := ha.inside
      exact ha.free (n - b - 1) (by omega) (by omega) border
  exact Nat.le_antisymm (le ha hb) (le hb ha)

end Scan

variable {p : Path} {es : List (List Byte)} {e : List Byte}

/-- All elements of a text but the last are taken away. -/
theorem nexts_text (rep : TextRep p (es ++ [e])) (text : p.sepBinary = false) (base : p.base ≠ .null) :
    TextRep (p.nexts es.length) [e] ∧ (p.nexts es.length).base ≠ .null ∧
      (p.nexts es.length).sepBinary = false ∧
      (p.nexts es.length).off = p.off + (textBytes p.sep es).length := by
  induction es generalizing p with
  | nil => exact ⟨rep, base, text, rfl⟩
  | cons e₁ es ih =>
      obtain ⟨q, eq, _, rest, alike, same, off, _⟩ := next_text rep text base
      have further := ih rest (alike.sepBinary.trans text) (by rw [same]; exact base)
      rw [List.length_cons, nexts, eq]
      refine ⟨further.1, further.2.1, further.2.2.1, ?_⟩
      rw [further.2.2.2, off, alike.sep, textBytes_cons]
      simp
      omega

theorem nexts_binary (rep : BinaryRep p (es ++ [e])) (binary : p.sepBinary = true)
    (base : p.base ≠ .null) :
    BinaryRep (p.nexts es.length) [e] ∧
      (p.nexts es.length).off = p.off + (binaryBytes es).length := by
  induction es generalizing p with
  | nil => exact ⟨rep, rfl⟩
  | cons e₁ es ih =>
      obtain ⟨q, eq, _, rest, alike, same, off, _⟩ := next_binary rep binary base
      have further := ih rest (alike.sepBinary.trans binary) (by rw [same]; exact base)
      rw [List.length_cons, nexts, eq]
      refine ⟨further.1, ?_⟩
      rw [further.2, off, binaryBytes_cons, List.length_append, length_binaryElement]
      omega

/-- What `mpt_path_last` leaves of a text. -/
theorem last_text {i len : Nat} (some_len : p.len ≠ 0) (text : p.sepBinary = false) (base : p.base ≠ .null)
    (scan : lastScan p.mem p.sep (p.len - 1) 0 = (i, len)) :
    p.last = some { p with
      off := p.off + i, first := .ofNat len, len := (UInt8.ofNat len).toNat + 1 } ∧
      p.lastRet = toInt len := by
  have eq : p.last = some { p with
      off := p.off + i, first := .ofNat len, len := (UInt8.ofNat len).toNat + 1 } := by
    unfold last
    split
    · rename_i null
      exact absurd null base
    · rw [if_neg some_len, if_neg (by simp [text]), scan]
  refine ⟨eq, ?_⟩
  simp [lastRet, eq, text, scan]

/-- What is left of a text has the length that `first` has. -/
theorem next_of_last (q : Path) (text : q.sepBinary = false) (base : q.base ≠ .null)
    (len : q.len = q.first.toNat + 1) : q.nextInt.2 = .ok (toInt q.first.toNat) := by
  have eq := next_eq (p := q) (n := q.first.toNat) (q.first.toNat + 1) 0 base (by omega)
    (fun binary => absurd (text.symm.trans binary) (by decide)) (fun _ => ⟨rfl, ?_⟩)
  · simp only [nextInt, eq]
    rfl
  · by_cases zero : q.first = 0
    · refine .inr ⟨zero, rfl, .inr ⟨?_, len.symm⟩⟩
      rw [len, zero]
      rfl
    · exact .inl ⟨zero, rfl, rfl⟩

/-- The last element is found in text format, if it is short enough to be counted in `first`,
    and if the bytes at the start of the buffer end as those of the path do. -/
theorem last_reduces (lists : Lists p (es ++ [e])) : Reduces p es.length ↔
    p.sepBinary = false ∧ e.length ≤ 255 ∧ EndsWith p.mem p.sep (p.len - 1) e.length := by
  obtain ⟨base, text, binary⟩ := lists
  by_cases format : p.sepBinary = true
  · have rep := binary format
    obtain ⟨alone, off⟩ := nexts_binary rep format base
    have len := rep.len
    rw [binaryBytes_append, List.length_append] at len
    have left := alone.len
    simp only [binaryBytes_cons, binaryBytes_nil, List.append_nil, length_binaryElement] at len left
    constructor
    · rintro ⟨q, eq, off', len', _⟩
      exfalso
      unfold last at eq
      split at eq
      · cases eq
      · rw [if_neg (by omega), if_pos format] at eq
        dsimp only at eq
        split at eq
        · cases eq
        · rename_i enough
          rw [← Option.some.inj eq] at off' len'
          simp only at off' len'
          omega
    · rintro ⟨text, _⟩
      exact absurd (text.symm.trans format) (by decide)
  · have format : p.sepBinary = false := by simpa using format
    have rep := text format
    obtain ⟨alone, base', text', off⟩ := nexts_text rep format base
    have len := rep.len
    rw [textBytes_append, List.length_append] at len
    have left := alone.len
    simp only [textBytes_cons, textBytes_nil, List.append_nil, List.length_append,
      List.length_singleton] at len left
    obtain ⟨i, le, scan, ends⟩ := lastScan_spec p.mem p.sep (p.len - 1) 0
    rw [Nat.zero_add] at scan
    obtain ⟨eq, ret⟩ := last_text (by omega) format base scan
    constructor
    · rintro ⟨q, eq', off', len', _⟩
      rw [← Option.some.inj (eq.symm.trans eq')] at off' len'
      simp only [UInt8.toNat_ofNat'] at off' len'
      have size : p.len - 1 - i = e.length := by omega
      refine ⟨format, by omega, ?_⟩
      rwa [size] at ends
    · rintro ⟨_, short, ends'⟩
      have size := ends.unique ends'
      rw [size] at eq ret
      have byte : (UInt8.ofNat e.length).toNat = e.length := by
        simp
        omega
      refine ⟨_, eq, ?_, ?_, ?_, ?_⟩
      · show p.off + i = _
        omega
      · show (UInt8.ofNat e.length).toNat + 1 = _
        omega
      · obtain ⟨_, next, _⟩ := next_text alone text' base'
        rw [nextInt, next, ret]
        rfl
      · rw [next_of_last _ (by exact format) (by exact base) rfl, byte, ret]

/-- A text that starts where its buffer does has only one end. -/
theorem ends_at_start (rep : TextRep p (es ++ [e])) (start : p.off = 0) :
    EndsWith p.mem p.sep (p.len - 1) e.length := by
  have bytes := rep.bytes
  have len := rep.len
  rw [textBytes_append, List.length_append] at len
  simp only [textBytes_cons, textBytes_nil, List.append_nil, List.length_append,
    List.length_singleton] at len
  rw [start, textBytes_append, textBytes_cons, textBytes_nil, List.append_nil, ← List.append_assoc,
    List.dropLast_concat] at bytes
  have at_ (i : Nat) (inside : i < p.len - 1) :
      (textBytes p.sep es ++ e)[i]? = some (p.mem i) := by
    rw [← bytes, Mem.getElem?_read _ _ _ _ inside, Nat.zero_add]
  refine ⟨by omega, ?_, ?_⟩
  · intro i low high same
    have eq := at_ i high
    rw [List.getElem?_append_right (by omega)] at eq
    exact rep.free e (by simp) (same ▸ List.mem_of_getElem? eq)
  · by_cases none : es = []
    · refine .inl ?_
      rw [none, textBytes_nil, List.length_nil] at len
      omega
    · refine .inr ?_
      have some : (textBytes p.sep es).length ≠ 0 := fun zero =>
        textBytes_ne_nil none (List.eq_nil_of_length_eq_zero zero)
      have eq := at_ (p.len - 1 - e.length - 1) (by omega)
      rw [textBytes_last none, List.append_assoc, List.getElem?_append_right (by simp; omega),
        List.length_dropLast, show p.len - 1 - e.length - 1 - ((textBytes p.sep es).length - 1) = 0 by
          omega] at eq
      exact (Option.some.inj eq).symm

/-- `a.bc` from `bc` on -/
def tail : Path :=
  ⟨.text fun i => [97, 46, 98, 99].getD i 0, 2, 3, 0, false, false, 46, 0⟩

theorem tail_lists : Lists tail ([] ++ [[98, 99]]) where
  base := PathBase.noConfusion
  text := fun _ => ⟨rfl, rfl, .inl rfl, by decide⟩
  binary := fun binary => nomatch binary

/-- `a.bc` as a whole -/
theorem last_reduces_whole : Reduces { tail with off := 0, len := 5 } 1 ↔
    (false = false ∧ 2 ≤ 255 ∧ EndsWith tail.mem 46 4 2) :=
  @last_reduces { tail with off := 0, len := 5 } [[97]] [98, 99]
    ⟨PathBase.noConfusion, fun _ => ⟨rfl, rfl, .inl rfl, by decide⟩, fun binary => nomatch binary⟩

/-- The scan looks at the bytes before the offset. -/
theorem last_tail : ¬ ∀ (p : Path) (es : List (List Byte)) (e : List Byte),
    Lists p (es ++ [e]) → Reduces p es.length := by
  intro all
  obtain ⟨q, eq, _, len, _⟩ := all tail [] [98, 99] tail_lists
  rw [← Option.some.inj (eq : some _ = some q)] at len
  revert len
  decide +kernel

end Mpt.Config.Path
