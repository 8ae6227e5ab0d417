import Mpt.Config.Path
import Mpt.Run

/-! # A path is a list of elements

`Rep` relates the bytes of a path to its elements.  In text format every element is
followed by a separator, of which the last may be any byte.  In binary format every
element stands between two bytes with its length, where the one before the first
element is `first`, and one more byte of any value follows.
-/

namespace Mpt.Config

/-- The elements in text format, each with its separator. -/
def textBytes (sep : Byte) (els : List (List Byte)) : List Byte := els.flatMap (· ++ [sep])

/-- An element in binary format between its lengths. -/
def binaryElement (e : List Byte) : List Byte := .ofNat e.length :: e ++ [.ofNat e.length]

/-- The elements in binary format. -/
def binaryBytes (els : List (List Byte)) : List Byte := els.flatMap binaryElement

@[simp] theorem textBytes_nil (sep : Byte) : textBytes sep [] = [] := rfl

@[simp] theorem textBytes_cons (sep : Byte) (e : List Byte) (els : List (List Byte)) :
    textBytes sep (e :: els) = e ++ [sep] ++ textBytes sep els := by
  simp [textBytes]

@[simp] theorem textBytes_append (sep : Byte) (els els' : List (List Byte)) :
    textBytes sep (els ++ els') = textBytes sep els ++ textBytes sep els' := by
  simp [textBytes]

@[simp] theorem binaryBytes_nil : binaryBytes [] = [] := rfl

@[simp] theorem binaryBytes_cons (e : List Byte) (els : List (List Byte)) :
    binaryBytes (e :: els) = binaryElement e ++ binaryBytes els := by
  simp [binaryBytes]

@[simp] theorem binaryBytes_append (els els' : List (List Byte)) :
    binaryBytes (els ++ els') = binaryBytes els ++ binaryBytes els' := by
  simp [binaryBytes]

@[simp] theorem length_binaryElement (e : List Byte) : (binaryElement e).length = e.length + 2 := by
  simp [binaryElement]

namespace Store

theorem le_allocSize (len : Nat) : len ≤ allocSize len := by
  unfold allocSize
  omega

/-- What more bytes at the end leave of a buffer. -/
theorem append_cases (b : Store) (n : Nat) (fresh : Option (Mem Byte)) :
    (∃ b', b.append n fresh = some b' ∧ b'.used = b.used + n ∧ b'.used ≤ b'.size ∧
        ∀ i < b.used, b'.mem i = b.mem i) ∨
      b.append n fresh = none ∧ fresh = none := by
  unfold append detach
  by_cases room : b.used + n ≤ b.size
  · rw [if_pos room]
    refine .inl ⟨_, rfl, rfl, room, fun i inside => ?_⟩
    exact Mem.write_below _ _ inside
  · rw [if_neg room]
    cases fresh with
    | none => exact .inr ⟨rfl, rfl⟩
    | some m =>
        refine .inl ⟨_, rfl, rfl, le_allocSize _, fun i inside => ?_⟩
        simp only
        rw [Mem.write_below _ _ inside]
        have copied := Mem.write_inside m 0 (b.mem.read 0 b.used) (i := i) (by simpa using inside)
        simpa using copied

end Store

namespace Path

variable {p q : Path} {els : List (List Byte)}

/-- The storage of a path, which is its own. -/
def Stored (p : Path) : Prop :=
  (p.base = .null ∧ p.off = 0 ∧ p.len = 0) ∨
    ∃ b, p.base = .array b ∧ b.used ≤ b.size ∧ p.len ≤ b.used

/-- The elements in text format. -/
structure TextRep (p : Path) (els : List (List Byte)) : Prop where
  len : p.len = (textBytes p.sep els).length
  bytes : p.mem.read p.off (p.len - 1) = (textBytes p.sep els).dropLast
  first : p.first = 0 ∨ ∃ e es, els = e :: es ∧ p.first.toNat = e.length
  free : ∀ e ∈ els, p.sep ∉ e

/-- The elements in binary format. -/
structure BinaryRep (p : Path) (els : List (List Byte)) : Prop where
  len : p.len = (binaryBytes els).length
  bytes : p.mem.read p.off (p.len - 1) = (binaryBytes els).tail
  first : ∀ e es, els = e :: es → p.first.toNat = e.length ∧ (p.off ≠ 0 → p.mem (p.off - 1) = p.first)
  short : ∀ e ∈ els, e.length ≤ 255

/-- The path stands for a list of elements. -/
structure Rep (p : Path) (els : List (List Byte)) : Prop where
  stored : Stored p
  text : p.sepBinary = false → TextRep p els
  binary : p.sepBinary = true → BinaryRep p els

/-- The bytes up to the end of the path and its header are the same. -/
structure Same (p q : Path) : Prop where
  off : q.off = p.off
  len : q.len = p.len
  first : q.first = p.first
  sepBinary : q.sepBinary = p.sepBinary
  sep : q.sep = p.sep
  assign : q.assign = p.assign
  below : ∀ i < p.off + p.len, q.mem i = p.mem i

theorem Same.refl (p : Path) : Same p p := ⟨rfl, rfl, rfl, rfl, rfl, rfl, fun _ _ => rfl⟩

theorem Same.trans {r : Path} (h : Same p q) (h' : Same q r) : Same p r where
  off := h'.off.trans h.off
  len := h'.len.trans h.len
  first := h'.first.trans h.first
  sepBinary := h'.sepBinary.trans h.sepBinary
  sep := h'.sep.trans h.sep
  assign := h'.assign.trans h.assign
  below := fun i inside => (h'.below i (by rw [h.off, h.len]; exact inside)).trans (h.below i inside)

theorem Rep.same (h : Rep p els) (s : Same p q) (stored : Stored q) : Rep q els := by
  have bytes : q.mem.read q.off (q.len - 1) = p.mem.read p.off (p.len - 1) := by
    rw [s.off, s.len]
    apply Mem.read_congr
    intro i low high
    exact s.below i (by omega)
  refine ⟨stored, fun text => ?_, fun binary => ?_⟩
  · obtain ⟨len, bytes', first, free⟩ := h.text (s.sepBinary ▸ text)
    exact ⟨by rw [s.len, s.sep, len], by rw [bytes, s.sep, bytes'], by rw [s.first]; exact first,
      by rw [s.sep]; exact free⟩
  · obtain ⟨len, bytes', first, short⟩ := h.binary (s.sepBinary ▸ binary)
    refine ⟨by rw [s.len, len], by rw [bytes, bytes'], ?_, short⟩
    intro e es eq
    obtain ⟨size, before⟩ := first e es eq
    refine ⟨by rw [s.first, size], fun some => ?_⟩
    rw [s.off] at some ⊢
    rw [s.first, s.below _ (by omega), before some]

/-- The path with the bytes `cs` behind it, as they are added one by one. -/
structure Posted (p q : Path) (cs : List Byte) : Prop where
  same : Same p q
  store : (cs = [] ∧ q.base = .null ∧ q.off = 0 ∧ q.len = 0) ∨ ∃ b, q.base = .array b ∧
    b.used ≤ b.size ∧ b.used = p.off + p.len + cs.length ∧
      b.mem.read (p.off + p.len) cs.length = cs
  keep : cs ≠ [] → q.keepPost = true
  null : q.base = .null → p.base = .null

theorem Posted.stored {cs : List Byte} (h : Posted p q cs) : Stored q := by
  rcases h.store with ⟨_, base, off, len⟩ | ⟨b, base, fits, used, _⟩
  · exact .inl ⟨base, off, len⟩
  · have len := h.same.len
    exact .inr ⟨b, base, fits, by omega⟩

/-- The new end of the storage is the byte that is added. -/
theorem posted_store {cs : List Byte} (h : Posted p q cs) {b' : Store} {n : Nat} (c : Byte)
    (at_ : n = p.off + p.len + cs.length) (used : b'.used = n + 1) (fits : b'.used ≤ b'.size)
    (below : ∀ i < p.off + p.len, b'.mem i = q.mem i)
    (before : b'.mem.read (p.off + p.len) cs.length = cs) :
    ∃ q'' ret, { q with base := .array (b'.set n c) }.valid = (q'', .ok ret) ∧
      Posted p q'' (cs ++ [c]) := by
  have off := h.same.off
  have len := h.same.len
  have size : (b'.set n c).used = p.off + p.len + cs.length + 1 := by
    simp only [Store.set]
    omega
  have more : (b'.set n c).used - (q.off + q.len) ≠ 0 := by omega
  refine ⟨{ q with base := .array (b'.set n c), keepPost := true },
    (b'.set n c).used - (q.off + q.len), ?_, ?_, .inr ⟨b'.set n c, rfl,
    fits, by rw [List.length_append, size]; rfl, ?_⟩, fun _ => rfl, fun base => nomatch base⟩
  · simp only [valid]
    rw [if_neg (by omega), if_pos more]
  · refine ⟨h.same.off, h.same.len, h.same.first, h.same.sepBinary, h.same.sep, h.same.assign, ?_⟩
    intro i inside
    change b'.mem.set n c i = p.mem i
    rw [Mem.set_ne _ _ (by omega), below i inside, h.same.below i inside]
  · rw [List.length_append, Mem.read_append, List.length_singleton]
    simp only [Store.set, Mem.set]
    rw [Mem.read_write_disjoint _ _ (.inl (by omega)), before, at_, Mem.read_one]
    congr 2
    exact Mem.set_self _ _ _

/-- One more byte behind the path. -/
theorem posted_char {cs : List Byte} (h : Posted p q cs) (c : Byte) (fresh : Option (Mem Byte)) :
    (∃ q' ret, q.addchar c fresh = (q', .ok ret) ∧
        ∃ q'' ret', q'.valid = (q'', .ok ret') ∧ Posted p q'' (cs ++ [c])) ∨
      (∃ e, q.addchar c fresh = (q, .error e)) ∧ fresh = none := by
  have off := h.same.off
  have len := h.same.len
  rcases h.store with ⟨rfl, base, zero, empty⟩ | ⟨b, base, fits, used, before⟩
  · cases fresh with
    | none => exact .inr ⟨⟨.badOperation, by simp [addchar, base]⟩, rfl⟩
    | some m =>
        refine .inl ⟨{ q with base := .array ((q.newStore m (q.off + q.len + 1)).set (q.off + q.len) c) },
          3, by simp [addchar, base], ?_⟩
        refine posted_store h c (by rw [off, len]; rfl) ?_ ?_ ?_ rfl
        · simp [newStore, base]
        · simp only [newStore, base]
          exact Store.le_allocSize _
        · intro i inside
          omega
  · have keep : ¬ (q.off + q.len < b.used ∧ q.keepPost = false) := by
      rintro ⟨more, off'⟩
      have some : cs ≠ [] := by
        rintro rfl
        simp only [List.length_nil] at used
        omega
      rw [h.keep some] at off'
      cases off'
    have at_ : b.used = p.off + p.len + cs.length := used
    have mem : q.mem = b.mem := by simp [Path.mem, base]
    by_cases room : b.used < b.size
    · refine .inl ⟨{ q with base := .array { b.set b.used c with used := b.used + 1 } }, 1, ?_, ?_⟩
      · simp only [addchar, base]
        rw [if_neg keep, if_pos room]
      · exact @posted_store p q cs h { b with used := b.used + 1 } b.used c at_ rfl room
          (fun i _ => by rw [mem]) before
    · rcases b.append_cases 1 fresh with ⟨b', eq, used', fits', same⟩ | ⟨eq, none⟩
      · refine .inl ⟨{ q with base := .array (b'.set b.used c) }, 2, ?_, ?_⟩
        · simp only [addchar, base]
          rw [if_neg keep, if_neg room, eq]
        · refine posted_store h c at_ used' fits' (fun i inside => ?_) ?_
          · rw [mem]
            exact same i (by omega)
          · have agree : b'.mem.read (p.off + p.len) cs.length =
                b.mem.read (p.off + p.len) cs.length :=
              Mem.read_congr fun i low high => same i (by omega)
            exact agree.trans before
      · refine .inr ⟨⟨.badArgument, ?_⟩, none⟩
        simp only [addchar, base]
        rw [if_neg keep, if_neg room, eq]

/-- Add the bytes of an element one by one, each confirmed as valid. -/
def pushChars (alloc : Nat → Option (Mem Byte)) (p : Path) (i : Nat) :
    List Byte → Path × Except Error Nat
  | [] => p.valid
  | c :: cs =>
      match p.addchar c (alloc i) with
      | (p, .error e) => (p, .error e)
      | (p, .ok _) =>
          match p.valid with
          | (p, .error e) => (p, .error e)
          | (p, .ok _) => pushChars alloc p (i + 1) cs

/-- Add an element: its bytes, and what makes them an element. -/
def push (alloc : Nat → Option (Mem Byte)) (p : Path) (e : List Byte) : Path × Except Error Nat :=
  match p.pushChars alloc 0 e with
  | (p, .error err) => (p, .error err)
  | (p, .ok _) => p.add e.length (alloc e.length)

/-- All bytes are there, or there was no memory for them. -/
theorem posted_chars {cs : List Byte} (h : Posted p q cs) (alloc : Nat → Option (Mem Byte))
    (i : Nat) (more : List Byte) :
    (∃ q' ret, q.pushChars alloc i more = (q', .ok ret) ∧ Posted p q' (cs ++ more)) ∨
      (∃ q' e, q.pushChars alloc i more = (q', .error e) ∧ Same p q' ∧ Stored q') ∧
        ∃ j, alloc j = none := by
  induction more generalizing q cs i with
  | nil =>
      refine .inl ?_
      have off := h.same.off
      have len := h.same.len
      rw [List.append_nil]
      simp only [pushChars]
      rcases h.store with ⟨empty, base, _⟩ | ⟨b, base, fits, used, before⟩
      · exact ⟨q, 0, by simp [valid, base], h⟩
      · refine ⟨{ q with keepPost := if b.used - (q.off + q.len) ≠ 0 then true else q.keepPost },
          b.used - (q.off + q.len), ?_, ⟨h.same.off, h.same.len, h.same.first, h.same.sepBinary,
          h.same.sep, h.same.assign, h.same.below⟩, ?_, ?_, h.null⟩
        · simp only [valid, base]
          rw [if_neg (by omega)]
        · exact .inr ⟨b, base, fits, used, before⟩
        · intro some
          simp [h.keep some]
  | cons c more ih =>
      simp only [pushChars]
      rcases posted_char h c (alloc i) with ⟨q', ret, eq, q'', ret', eq', next⟩ | ⟨⟨e, eq⟩, none⟩
      · rw [eq]
        simp only
        rw [eq']
        simp only
        have := ih next (i + 1)
        rw [List.append_assoc] at this
        exact this
      · rw [eq]
        exact .inr ⟨⟨q, e, rfl, h.same, h.stored⟩, i, none⟩

theorem textBytes_last {sep : Byte} (some : els ≠ []) :
    textBytes sep els = (textBytes sep els).dropLast ++ [sep] := by
  rcases List.eq_nil_or_concat els with rfl | ⟨es, e, rfl⟩
  · exact absurd rfl some
  · simp [← List.append_assoc]

theorem textBytes_ne_nil {sep : Byte} (some : els ≠ []) : textBytes sep els ≠ [] := by
  rw [textBytes_last some]
  simp

/-- What `mpt_path_add` leaves in memory: the byte before the new element is set, and the
    element stands behind the path. -/
structure Sealed (p : Path) (m : Mem Byte) (e : List Byte) (x : Byte) : Prop where
  before : ∀ i, i + 1 < p.off + p.len → m i = p.mem i
  border : p.off + p.len ≠ 0 → m (p.off + p.len - 1) = x
  element : m.read (p.off + p.len) e.length = e

theorem Sealed.read {m : Mem Byte} {e : List Byte} {x : Byte} (h : Sealed p m e x) (some : p.len ≠ 0) :
    m.read p.off p.len = p.mem.read p.off (p.len - 1) ++ [x] := by
  obtain ⟨n, size⟩ := Nat.exists_eq_succ_of_ne_zero some
  have border := h.border (by omega)
  have last : p.off + p.len - 1 = p.off + n := by omega
  rw [size, Nat.succ_sub_one, Nat.succ_eq_add_one, Mem.read_append, Mem.read_one]
  rw [last] at border
  rw [border]
  congr 1
  exact Mem.read_congr fun i low high => h.before i (by omega)

theorem text_add (h : TextRep p els) {e : List Byte} {m : Mem Byte} (s : Sealed p m e p.sep)
    (free : p.sep ∉ e) (first : p.off + p.len = 0 → e.length < 256 ∨ e.length % 256 = 0)
    {q : Path} (mem : q.mem = m) (off : q.off = p.off) (len : q.len = p.len + e.length + 1)
    (first' : q.first = if p.off + p.len ≠ 0 then p.first else .ofNat e.length)
    (sep : q.sep = p.sep) : TextRep q (els ++ [e]) := by
  have size := h.len
  have all : m.read p.off p.len = textBytes p.sep els := by
    by_cases none : p.len = 0
    · rw [none] at size ⊢
      rw [List.eq_nil_of_length_eq_zero size.symm]
      rfl
    · rw [s.read none, h.bytes]
      refine (textBytes_last ?_).symm
      rintro rfl
      exact none size
  refine ⟨?_, ?_, ?_, ?_⟩
  · rw [len, sep, h.len]
    simp
    omega
  · rw [mem, off, len, sep, Nat.add_sub_cancel, Mem.read_append, all, s.element]
    simp [← List.append_assoc]
  · rw [first']
    by_cases start : p.off + p.len = 0
    · have nothing : els = [] := by
        by_contra some
        have := List.length_pos_iff.mpr (@textBytes_ne_nil els p.sep some)
        omega
      rw [if_neg (not_not.mpr start), nothing]
      rcases first start with short | wraps
      · refine .inr ⟨e, [], rfl, ?_⟩
        simp
        omega
      · left
        apply UInt8.toNat_inj.mp
        simpa using wraps
    · rw [if_pos start]
      rcases h.first with zero | ⟨e', es, rfl, eq⟩
      · exact .inl zero
      · exact .inr ⟨e', es ++ [e], rfl, eq⟩
  · intro e' mem
    rw [sep]
    rcases List.mem_append.mp mem with mem | mem
    · exact h.free e' mem
    · rw [List.mem_singleton.mp mem]
      exact free

theorem binary_add (h : BinaryRep p els) {e : List Byte} {m : Mem Byte}
    (s : Sealed p m e (.ofNat e.length)) (last : m (p.off + p.len + e.length) = .ofNat e.length)
    (short : e.length ≤ 255)
    (first : p.len = 0 → p.off ≠ 0 → p.first.toNat = e.length) {q : Path} (mem : q.mem = m)
    (off : q.off = p.off) (len : q.len = p.len + e.length + 2)
    (first' : q.first = if p.off + p.len ≠ 0 then p.first else .ofNat e.length) :
    BinaryRep q (els ++ [e]) := by
  have size := h.len
  have byte : (UInt8.ofNat e.length).toNat = e.length := by
    simp
    omega
  have tail : m.read (p.off + p.len) (e.length + 1) = e ++ [.ofNat e.length] := by
    rw [Mem.read_append, s.element, Mem.read_one, last]
  refine ⟨?_, ?_, ?_, ?_⟩
  · rw [len, h.len]
    simp
    omega
  · rw [mem, off, len, show p.len + e.length + 2 - 1 = p.len + (e.length + 1) by omega,
      Mem.read_append, tail]
    cases els with
    | nil =>
        simp only [binaryBytes_nil, List.length_nil] at size
        rw [size]
        simp [Mem.read, binaryElement]
    | cons e₁ es =>
        rw [s.read (by rw [size]; simp [binaryElement]), h.bytes]
        simp [binaryElement]
  · intro e' es' eq
    cases els with
    | nil =>
        obtain ⟨rfl, _⟩ := List.cons.inj eq
        simp only [binaryBytes_nil, List.length_nil] at size
        by_cases start : p.off = 0
        · rw [first', off, if_neg (by omega)]
          exact ⟨byte, fun some => absurd start some⟩
        · have same := first size start
          have border := s.border (by omega)
          rw [size, Nat.add_zero] at border
          rw [first', off, mem, if_pos (by omega)]
          refine ⟨same, fun _ => ?_⟩
          rw [border]
          exact UInt8.toNat_inj.mp (byte.trans same.symm)
    | cons e₁ es =>
        obtain ⟨rfl, _⟩ := List.cons.inj eq
        obtain ⟨same, before⟩ := h.first e₁ es rfl
        have some : p.len ≠ 0 := by rw [size]; simp [binaryElement]
        rw [first', off, mem, if_pos (by omega)]
        refine ⟨same, fun start => ?_⟩
        rw [s.before _ (by omega)]
        exact before start
  · intro e' mem
    rcases List.mem_append.mp mem with mem | mem
    · exact h.short e' mem
    · rw [List.mem_singleton.mp mem]
      exact short

/-- The last byte of the path becomes a border between elements. -/
def border (p : Path) (b : Store) (x : Byte) : Store :=
  if p.off + p.len ≠ 0 then b.set (p.off + p.len - 1) x else b

@[simp] theorem border_size (b : Store) (x : Byte) : (p.border b x).size = b.size := by
  unfold border
  split <;> rfl

@[simp] theorem border_used (b : Store) (x : Byte) : (p.border b x).used = b.used := by
  unfold border
  split <;> rfl

theorem sealed_store {e : List Byte} (h : Posted p q e) {b b' : Store} (base : q.base = .array b)
    (same : ∀ i < b.used, b'.mem i = b.mem i) (x : Byte) :
    Sealed p (p.border b' x).mem e x := by
  unfold border
  have mem : q.mem = b.mem := by simp [Path.mem, base]
  obtain ⟨used, element⟩ : b.used = p.off + p.len + e.length ∧
      b.mem.read (p.off + p.len) e.length = e := by
    rcases h.store with ⟨_, null, _⟩ | ⟨b', base', _, used, element⟩
    · rw [base] at null
      cases null
    · rw [base] at base'
      cases base'
      exact ⟨used, element⟩
  have agree : b'.mem.read (p.off + p.len) e.length = e :=
    (Mem.read_congr fun i low high => same i (by omega)).trans element
  have below : ∀ i < p.off + p.len, b'.mem i = p.mem i := fun i inside => by
    rw [same i (by omega), ← mem, h.same.below i inside]
  by_cases start : p.off + p.len = 0
  · rw [if_neg (not_not.mpr start)]
    exact ⟨fun i inside => below i (by omega), fun some => absurd start some, agree⟩
  · rw [if_pos start]
    refine ⟨fun i inside => ?_, fun _ => Mem.set_self _ _ _, ?_⟩
    · rw [← below i (by omega)]
      exact Mem.set_ne _ _ (by omega)
    · exact (Mem.read_congr fun i low high => Mem.set_ne _ _ (by omega)).trans agree

theorem Sealed.above {m m' : Mem Byte} {e : List Byte} {x : Byte} (h : Sealed p m e x)
    (same : ∀ i < p.off + p.len + e.length, m' i = m i) : Sealed p m' e x where
  before := fun i inside => (same i (by omega)).trans (h.before i inside)
  border := fun some => (same _ (by omega)).trans (h.border some)
  element := (Mem.read_congr fun i low high => same i (by omega)).trans h.element

end Path

end Mpt.Config
