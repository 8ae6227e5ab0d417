import Mpt.Config.PathRun
import Mathlib.Data.List.TakeWhile

/-! # Setting a path to a string

The string of a path ends at its first assign character, and its elements are what lies
between the separators.
-/

namespace Mpt.Config

/-- A string: its bytes end where the first zero is. -/
structure CString where
  mem : Mem Byte
  len : Nat
  ends : mem len = 0
  before : ∀ i < len, mem i ≠ 0

namespace CString

/-- The characters of a string. -/
def text (s : CString) : List Byte := s.mem.read 0 s.len

theorem zero_notMem (s : CString) : 0 ∉ s.text := by
  intro mem
  obtain ⟨i, inside, eq⟩ := List.mem_map.mp mem
  rw [Nat.zero_add] at eq
  exact s.before i (List.mem_range.mp inside) eq

end CString

/-- A number as `int`. -/
def toInt (n : Nat) : Int := ((n : Int) + 2 ^ 31) % 2 ^ 32 - 2 ^ 31

theorem toInt_eq_iff (n : Nat) : toInt n = n ↔ n < 2 ^ 31 := by
  unfold toInt
  omega

theorem toInt_ne_succ (n : Nat) : toInt n ≠ (n + 1 : Nat) := by
  unfold toInt
  omega

namespace Path

/-- What `mpt_path_set` knows behind its loop: the number of characters it has looked at, the
    length of the first part, the number of elements, and whether there was an assignment. -/
structure Scan where
  plen : Nat
  first : Nat
  elem : Nat
  assigned : Bool
  deriving Repr, DecidableEq

/-- The loop of `mpt_path_set`. -/
def setLoop (val : Mem Byte) (sep assign : Byte) (plen first elem : Nat) : (left : Nat) → Scan
  | 0 => ⟨plen, first, elem, false⟩
  | left + 1 =>
      -- inline assignment
      if val plen = assign then
        ⟨plen + 1, first, elem + 1, true⟩
      -- separator found, save length of first part
      else if val plen = sep then
        setLoop val sep assign (plen + 1) (if elem = 0 then plen else first) (elem + 1) left
      else
        setLoop val sep assign (plen + 1) first elem left

/-- `mpt_path_set`: a negative length stands for that of the string with its zero. -/
def set (p : Path) (val : Option CString) (len : Int) : Path × Int :=
  match val with
  | none => ({ p with base := .null, off := 0, len := 0, first := 0, keepPost := false, sepBinary := false }, 0)
  | some s =>
      let vlen := if len < 0 then s.len + 1 else len.toNat
      let scan := setLoop s.mem p.sep p.assign 0 0 0 vlen
      let add := if scan.assigned then 0 else 1
      ({ p with
        base := .text s.mem
        off := 0
        len := scan.plen + add
        first := if 255 < scan.first then 0 else .ofNat scan.first
        keepPost := false
        sepBinary := false }, toInt scan.elem)

/-- What `mpt_path_next` returns is an `int`. -/
def nextInt (p : Path) : Path × Except Error Int := (p.next.1, p.next.2.map toInt)

/-- Repeated calls of `mpt_path_next` give these elements, and then the end. -/
def Yields (p : Path) : List (List Byte) → Prop
  | [] => p.nextInt.2 = .error .missingData
  | e :: es => p.nextInt.2 = .ok e.length ∧ AtStart p e ∧ Yields p.nextInt.1 es

/-- The elements that a string has for a path. -/
def elements (p : Path) (s : CString) : List (List Byte) :=
  (s.text.takeWhile (· ≠ p.assign)).splitOn p.sep

/-- The path is set to the elements of the string. -/
def Splits (p : Path) (s : CString) : Prop :=
  Yields (p.set (some s) (-1)).1 (p.elements s) ∧
    (p.set (some s) (-1)).2 = (p.elements s).length

section Split

variable {sep : Byte}

theorem splitOn_other {x : Byte} (l : List Byte) (other : x ≠ sep) :
    ∃ e es, l.splitOn sep = e :: es ∧ (x :: l).splitOn sep = (x :: e) :: es := by
  obtain ⟨e, es, eq⟩ := List.exists_cons_of_ne_nil (List.splitOn_ne_nil sep l)
  refine ⟨e, es, eq, ?_⟩
  rw [List.splitOn_cons_eq_if_modifyHead, if_neg (by simpa using other), eq]
  rfl

theorem splitOn_sep (l : List Byte) : (sep :: l).splitOn sep = [] :: l.splitOn sep := by
  rw [List.splitOn_cons_eq_if_modifyHead, if_pos (beq_self_eq_true sep)]

theorem textBytes_splitOn (l : List Byte) : textBytes sep (l.splitOn sep) = l ++ [sep] := by
  induction l with
  | nil => rfl
  | cons x l ih =>
      by_cases same : x = sep
      · rw [same, splitOn_sep, textBytes_cons, ih]
        rfl
      · obtain ⟨e, es, eq, next⟩ := splitOn_other l same
        rw [eq, textBytes_cons] at ih
        rw [next, textBytes_cons, List.cons_append, List.cons_append, List.cons_append, ih]

theorem sep_notMem_splitOn (l : List Byte) : ∀ e ∈ l.splitOn sep, sep ∉ e := by
  induction l with
  | nil => simp
  | cons x l ih =>
      by_cases same : x = sep
      · rw [same, splitOn_sep]
        simpa using ih
      · obtain ⟨e, es, eq, next⟩ := splitOn_other l same
        rw [eq] at ih
        rw [next]
        intro e' mem
        rcases List.mem_cons.mp mem with rfl | mem
        · have free := ih e (List.mem_cons_self ..)
          simpa [Ne.symm same] using free
        · exact ih e' (List.mem_cons_of_mem _ mem)

theorem length_splitOn (l : List Byte) : (l.splitOn sep).length = l.count sep + 1 := by
  induction l with
  | nil => rfl
  | cons x l ih =>
      by_cases same : x = sep
      · rw [same, splitOn_sep, List.length_cons, ih, List.count_cons_self]
      · obtain ⟨e, es, eq, next⟩ := splitOn_other l same
        rw [eq, List.length_cons] at ih
        rw [next, List.length_cons, ih, List.count_cons_of_ne same]

/-- The first element ends at the first separator. -/
theorem head_splitOn {l : List Byte} (found : l.findIdx? (· = sep) = some i) :
    ∃ e es, l.splitOn sep = e :: es ∧ e.length = i := by
  induction l generalizing i with
  | nil => cases found
  | cons x l ih =>
      rw [List.findIdx?_cons] at found
      by_cases same : x = sep
      · rw [if_pos (decide_eq_true same)] at found
        cases found
        exact ⟨[], l.splitOn sep, by rw [same, splitOn_sep], rfl⟩
      · rw [if_neg (by simpa using same)] at found
        obtain ⟨j, before, rfl⟩ := Option.map_eq_some_iff.mp found
        obtain ⟨e, es, eq, size⟩ := ih before
        obtain ⟨e', es', eq', next⟩ := splitOn_other l same
        obtain ⟨rfl, rfl⟩ := List.cons.inj (eq.symm.trans eq')
        exact ⟨x :: e, es, next, by rw [List.length_cons, size]⟩

end Split

section Loop

variable (val : Mem Byte) (sep assign : Byte)

/-- The loop stops behind the first assign character, and counts the separators before it. -/
theorem setLoop_eq (plen first elem left : Nat) :
    let c := val.read plen left
    let l := c.takeWhile (· ≠ assign)
    let more := if assign ∈ c then 1 else 0
    setLoop val sep assign plen first elem left =
      ⟨plen + l.length + more,
        if elem = 0 then ((l.findIdx? (· = sep)).map (plen + ·)).getD first else first,
        elem + l.count sep + more, decide (assign ∈ c)⟩ := by
  induction left generalizing plen first elem with
  | zero => simp [setLoop]
  | succ left ih =>
      simp only [Mem.read_succ, setLoop]
      by_cases ends : val plen = assign
      · rw [if_pos ends, List.takeWhile_cons_of_neg (by simpa using ends)]
        simp [ends]
      · have member : assign ∈ val plen :: val.read (plen + 1) left ↔
            assign ∈ val.read (plen + 1) left := by
          simp [Ne.symm ends]
        rw [if_neg ends, List.takeWhile_cons_of_pos (by simpa using ends), List.length_cons,
          List.findIdx?_cons]
        simp only [member]
        by_cases same : val plen = sep
        · rw [if_pos same, ih, same, List.count_cons_self]
          simp only [decide_true, if_true, Option.map_some, Option.getD_some, Scan.mk.injEq]
          refine ⟨by omega, ?_, by omega, trivial⟩
          rw [if_neg (by omega)]
          rfl
        · rw [if_neg same, ih, List.count_cons_of_ne same]
          simp only [same, decide_false, Bool.false_eq_true, if_false, Option.map_map, Scan.mk.injEq]
          refine ⟨by omega, ?_, trivial, trivial⟩
          have shift : ((plen + ·) ∘ fun i : Nat => i + 1) = (plen + 1 + ·) := by
            funext i
            show plen + (i + 1) = plen + 1 + i
            omega
          rw [shift]

end Loop

variable (p : Path) (s : CString)

theorem read_text : s.mem.read 0 (s.len + 1) = s.text ++ [0] := by
  rw [Mem.read_append, Mem.read_one, Nat.zero_add, s.ends]
  rfl

theorem set_scan {scan : Scan} (eq : setLoop s.mem p.sep p.assign 0 0 0 (s.len + 1) = scan) :
    p.set (some s) (-1) =
      ({ p with
        base := .text s.mem
        off := 0
        len := scan.plen + (if scan.assigned then 0 else 1)
        first := if 255 < scan.first then 0 else .ofNat scan.first
        keepPost := false
        sepBinary := false }, toInt scan.elem) := by
  rw [← eq]
  rfl

/-- The scan stops at an assign character. -/
theorem set_assigned (assigned : p.assign = 0 ∨ p.assign ∈ s.text) :
    TextRep (p.set (some s) (-1)).1 (p.elements s) ∧
      (p.set (some s) (-1)).2 = toInt (p.elements s).length := by
  have found : p.assign ∈ s.text ++ [0] := by
    rcases assigned with zero | inside
    · simp [zero]
    · simp [inside]
  have same : (s.text ++ [0]).takeWhile (· ≠ p.assign) = s.text.takeWhile (· ≠ p.assign) := by
    by_cases inside : p.assign ∈ s.text
    · rw [List.takeWhile_append, if_neg]
      intro all
      have := List.takeWhile_eq_self_iff.mp ((List.takeWhile_prefix _).eq_of_length all) _ inside
      simp at this
    · have zero : p.assign = 0 := assigned.resolve_right inside
      rw [List.takeWhile_append_of_pos, List.takeWhile_cons_of_neg (by simp [zero]), List.append_nil]
      · refine (List.takeWhile_eq_self_iff.mpr ?_).symm
        intro x mem
        simpa using fun eq : x = p.assign => inside (eq ▸ mem)
      · intro x mem
        simpa using fun eq : x = p.assign => inside (eq ▸ mem)
  have scan := setLoop_eq s.mem p.sep p.assign 0 0 0 (s.len + 1)
  simp only [read_text, same, if_true, Nat.zero_add, found, decide_true] at scan
  rw [set_scan p s scan]
  have size := congrArg List.length (@textBytes_splitOn p.sep (s.text.takeWhile (· ≠ p.assign)))
  rw [List.length_append, List.length_singleton] at size
  refine ⟨⟨?_, ?_, ?_, sep_notMem_splitOn _⟩, ?_⟩
  · exact size.symm
  · show s.mem.read 0 ((s.text.takeWhile (· ≠ p.assign)).length + 1 + 0 - 1) = _
    rw [elements, textBytes_splitOn, List.dropLast_concat, Nat.add_zero, Nat.add_sub_cancel]
    have start := List.takeWhile_prefix (p := fun x => decide (x ≠ p.assign)) (l := s.text)
    have shorter := start.length_le
    have := List.prefix_iff_eq_take.mp start
    rw [CString.text, Mem.length_read] at shorter
    conv_rhs => rw [this, CString.text, Mem.take_read, Nat.min_eq_left shorter]
    rfl
  · cases found : (s.text.takeWhile (· ≠ p.assign)).findIdx? (· = p.sep) with
    | none => exact .inl (by simp)
    | some i =>
        obtain ⟨e, es, split, len⟩ := head_splitOn found
        by_cases long : 255 < i
        · exact .inl (by simp [long])
        · refine .inr ⟨e, es, split, ?_⟩
          simp [long, len]
          omega
  · simp [elements, length_splitOn]

/-- The elements come out as long as their lengths are an `int`. -/
theorem yields_iff {p : Path} {els : List (List Byte)} (rep : TextRep p els)
    (text : p.sepBinary = false) (base : p.base ≠ .null) :
    Yields p els ↔ ∀ e ∈ els, e.length < 2 ^ 31 := by
  induction els generalizing p with
  | nil =>
      have eq : p.next = (p, .error .missingData) := by
        unfold next
        rw [if_pos (by simpa using rep.len)]
      simp only [Yields, nextInt, eq]
      exact iff_of_true rfl fun _ mem => nomatch mem
  | cons e es ih =>
      obtain ⟨q, eq, start, rest, alike, same, _, _⟩ := next_text rep text base
      have further := ih rest (alike.sepBinary.trans text) (by rw [same]; exact base)
      simp only [Yields, nextInt, eq, List.forall_mem_cons, further, ← toInt_eq_iff e.length]
      constructor
      · rintro ⟨len, _, more⟩
        exact ⟨Except.ok.inj len, more⟩
      · rintro ⟨len, more⟩
        exact ⟨congrArg Except.ok len, start, more⟩

/-- Without an assign character the zero is looked at as well. -/
theorem set_unassigned (some_assign : p.assign ≠ 0)
    (free : p.assign ∉ s.text) : ¬ Splits p s := by
  have none : p.assign ∉ s.text ++ [0] := by
    simp [free, some_assign]
  have all : (s.text ++ [0]).takeWhile (· ≠ p.assign) = s.text ++ [0] := by
    refine List.takeWhile_eq_self_iff.mpr fun x mem => ?_
    simpa using fun eq : x = p.assign => none (eq ▸ mem)
  have whole : s.text.takeWhile (· ≠ p.assign) = s.text := by
    refine List.takeWhile_eq_self_iff.mpr fun x mem => ?_
    simpa using fun eq : x = p.assign => free (eq ▸ mem)
  have scan := setLoop_eq s.mem p.sep p.assign 0 0 0 (s.len + 1)
  simp only [read_text, all, if_true, if_false, Nat.zero_add, Nat.add_zero, none, decide_false] at scan
  have eq := set_scan p s scan
  rintro ⟨yields, count⟩
  rw [elements, whole] at yields count
  by_cases zero : p.sep = 0
  · -- the terminator is taken for a separator, and an empty element comes behind it
    have lone : s.text.splitOn p.sep = [s.text] :=
      List.splitOn_eq_singleton (zero ▸ s.zero_notMem)
    rw [lone] at yields
    have size : s.text.length = s.len := by simp [CString.text]
    have idx : (s.text ++ [0]).findIdx? (· = p.sep) = some s.text.length := by
      rw [zero]
      exact findIdx?_sep s.zero_notMem
    have rep : TextRep (p.set (some s) (-1)).1 [s.text, []] := by
      rw [eq]
      refine ⟨?_, ?_, ?_, ?_⟩
      · simp
      · show s.mem.read 0 ((s.text ++ [0]).length + 1 - 1) = _
        rw [List.length_append, List.length_singleton, size, Nat.add_sub_cancel, read_text, ← zero]
        simp
      · by_cases long : 255 < s.text.length
        · exact .inl (by simp [idx, long])
        · refine .inr ⟨s.text, [[]], rfl, ?_⟩
          simp [idx, long]
          omega
      · intro e mem
        simp only [List.mem_cons, List.not_mem_nil, or_false] at mem
        rcases mem with rfl | rfl
        · exact fun inside => s.zero_notMem (zero ▸ inside)
        · exact List.not_mem_nil
    have text : (p.set (some s) (-1)).1.sepBinary = false := rfl
    have base : (p.set (some s) (-1)).1.base ≠ .null := PathBase.noConfusion
    obtain ⟨q, next, _, rest, alike, same, _⟩ := next_text rep text base
    obtain ⟨q', next', _⟩ :=
      next_text rest (alike.sepBinary.trans text) (by rw [same]; exact base)
    simp only [Yields, nextInt, next, next'] at yields
    cases yields.2.2
  · have number : (s.text ++ [0]).count p.sep = s.text.count p.sep := by
      rw [List.count_append, List.count_cons_of_ne (Ne.symm zero)]
      rfl
    rw [eq, length_splitOn] at count
    simp only [number] at count
    exact toInt_ne_succ _ count

/-- A path is set to the elements of a string if the scan ends at an assign character, as long
    as lengths and number of the elements are an `int`. -/
theorem set_splits :
    Splits p s ↔ (p.assign = 0 ∨ p.assign ∈ s.text) ∧ (p.elements s).length < 2 ^ 31 ∧
      ∀ e ∈ p.elements s, e.length < 2 ^ 31 := by
  by_cases assigned : p.assign = 0 ∨ p.assign ∈ s.text
  · obtain ⟨rep, count⟩ := set_assigned p s assigned
    rw [Splits, yields_iff rep rfl PathBase.noConfusion, count, toInt_eq_iff]
    exact ⟨fun h => ⟨assigned, h.2, h.1⟩, fun h => ⟨h.2.2, h.2.1⟩⟩
  · obtain ⟨some_assign, free⟩ := not_or.mp assigned
    constructor
    · exact fun splits => absurd splits (set_unassigned p s some_assign free)
    · exact fun h => absurd h.1 assigned

/-- The string `a` -/
def letter : CString where
  mem := fun i => if i = 0 then 97 else 0
  len := 1
  ends := rfl
  before := by
    intro i first
    rw [Nat.lt_one_iff.mp first]
    decide

/-- The only element of `a` is counted as none, and has two bytes. -/
theorem set_letter : ¬ ∀ p s, p.sep ≠ p.assign → Splits p s := by
  intro all
  obtain ⟨_, count⟩ := all (init false 46 61) letter (by decide)
  revert count
  decide +kernel

end Path

end Mpt.Config
