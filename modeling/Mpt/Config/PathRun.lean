import Mpt.Config.PathList

/-! # Sequences of operations on a path

Every operation does to the bytes of a path what it does to the list of elements.
For a new element that needs the path to end where its storage ends, and its first
length to have room in `first`.
-/

namespace Mpt.Config.Path

variable {p q : Path} {els : List (List Byte)}

/-- The state of a path that an element can be added to. -/
structure CanPush (p : Path) (e : List Byte) : Prop where
  some : p.base = .null → e ≠ []
  full : ∀ b, p.base = .array b → b.used = p.off + p.len
  binary : p.sepBinary = true → p.len = 0 → p.off ≠ 0 → p.first.toNat = e.length
  text : p.sepBinary = false → p.off + p.len = 0 → e.length < 256 ∨ e.length % 256 = 0

/-- What can be an element in the format of a path. -/
def Fits (sepBinary : Bool) (sep : Byte) (e : List Byte) : Prop :=
  if sepBinary then e.length ≤ 255 else sep ∉ e

/-- The same format. -/
structure Alike (p q : Path) : Prop where
  sepBinary : q.sepBinary = p.sepBinary
  sep : q.sep = p.sep

theorem Alike.refl (p : Path) : Alike p p := ⟨rfl, rfl⟩

theorem Same.alike (s : Same p q) : Alike p q := ⟨s.sepBinary, s.sep⟩

theorem posted_start (stored : Stored p) (full : ∀ b, p.base = .array b → b.used = p.off + p.len) :
    Posted p p [] := by
  rcases stored with ⟨base, off, len⟩ | ⟨b, base, fits, inside⟩
  · exact ⟨Same.refl p, .inl ⟨rfl, base, off, len⟩, fun some => absurd rfl some, id⟩
  · exact ⟨Same.refl p, .inr ⟨b, base, fits, full b base, rfl⟩, fun some => absurd rfl some, id⟩

/-- `mpt_path_add` of the bytes behind the path. -/
theorem add_posted {e : List Byte} (h : Rep p els) (posted : Posted p q e) (can : CanPush p e)
    (fits : Fits p.sepBinary p.sep e) (fresh : Option (Mem Byte)) :
    (∃ q', q.add e.length fresh = (q', .ok 0) ∧ Rep q' (els ++ [e]) ∧ Alike p q') ∨
      (∃ err, q.add e.length fresh = (q, .error err)) ∧ fresh = none := by
  have off := posted.same.off
  have len := posted.same.len
  obtain ⟨b, base, room, used, element⟩ : ∃ b, q.base = .array b ∧ b.used ≤ b.size ∧
      b.used = p.off + p.len + e.length ∧ b.mem.read (p.off + p.len) e.length = e := by
    rcases posted.store with ⟨none, base, _⟩ | store
    · exact absurd none (can.some (posted.null base))
    · exact store
  have mem : q.mem = b.mem := by simp [Path.mem, base]
  have post : q.addPost e.length = .ok 0 := by
    simp only [addPost, base]
    rw [if_neg (by omega), if_neg (by omega)]
    congr 1
    omega
  have store (need : Nat) (some : 0 < need) : q.addStore e.length need 0 fresh = b.append need fresh := by
    simp only [addStore, base]
    rw [if_pos some, Nat.sub_zero]
  have total : q.off + q.len = p.off + p.len := by rw [off, len]
  by_cases binary : p.sepBinary = true
  · have short : e.length ≤ 255 := by simpa [Fits, binary] using fits
    have binary' : q.sepBinary = true := posted.same.sepBinary.trans binary
    rcases b.append_cases 2 fresh with ⟨b', eq, used', fits', same⟩ | ⟨eq, none⟩
    · have result : q.add e.length fresh = ({ q with
          base := .array (((p.border b' (.ofNat e.length)).set (p.off + p.len + e.length)
            (.ofNat e.length)).set (p.off + p.len + e.length + 1) 0)
          first := if p.off + p.len ≠ 0 then q.first else .ofNat e.length
          len := p.off + p.len + e.length + 2 - q.off
          keepPost := false }, .ok 0) := by
        simp only [add, base, post, total, binary', if_true, border]
        rw [if_neg (by omega), store 2 (by omega), eq]
        simp only [rebase, base]
      rw [result]
      refine .inl ⟨_, rfl, ⟨.inr ⟨_, rfl, ?_, ?_⟩, fun text => ?_, fun _ => ?_⟩,
        ⟨posted.same.sepBinary, posted.same.sep⟩⟩
      · simpa [Store.set] using fits'
      · simp only [Store.set, border_used]
        omega
      · exact absurd (binary'.symm.trans text) (by decide)
      · have put := sealed_store posted base same (.ofNat e.length)
        refine binary_add (h.binary binary) (put.above fun i inside => ?_) ?_ short (can.binary binary)
          rfl off ?_ (by rw [← posted.same.first])
        · simp only [Path.mem, Store.set]
          rw [Mem.set_ne _ _ (by omega), Mem.set_ne _ _ (by omega)]
        · simp only [Path.mem, Store.set]
          rw [Mem.set_ne _ _ (by omega), Mem.set_self]
        · change p.off + p.len + e.length + 2 - q.off = _
          omega
    · refine .inr ⟨⟨.badOperation, ?_⟩, none⟩
      simp only [add, base, post, binary', if_true]
      rw [if_neg (by omega), store 2 (by omega), eq]
  · have text : p.sepBinary = false := by simpa using binary
    have free : p.sep ∉ e := by simpa [Fits, text] using fits
    have text' : q.sepBinary = false := posted.same.sepBinary.trans text
    have absent : ¬ q.sep ∈ q.mem.read (p.off + p.len) e.length := by
      rw [mem, element, posted.same.sep]
      exact free
    rcases b.append_cases 1 fresh with ⟨b', eq, used', fits', same⟩ | ⟨eq, none⟩
    · have result : q.add e.length fresh = ({ q with
          base := .array ((p.border b' p.sep).set (p.off + p.len + e.length) q.assign)
          first := if p.off + p.len ≠ 0 then q.first else .ofNat e.length
          len := p.off + p.len + e.length + 1 - q.off
          keepPost := false }, .ok 0) := by
        simp only [add, base, post, total, text', Bool.false_eq_true, if_false, border]
        rw [if_neg absent, store 1 (by omega), eq]
        simp only [rebase, base, posted.same.sep]
      rw [result]
      refine .inl ⟨_, rfl, ⟨.inr ⟨_, rfl, ?_, ?_⟩, fun _ => ?_, fun binary => ?_⟩,
        ⟨posted.same.sepBinary, posted.same.sep⟩⟩
      · simpa [Store.set] using fits'
      · simp only [Store.set, border_used]
        omega
      · have put := sealed_store posted base same p.sep
        refine text_add (h.text text) (put.above fun i inside => ?_) free (can.text text)
          rfl off ?_ (by rw [← posted.same.first]) posted.same.sep
        · simp only [Path.mem, Store.set]
          rw [Mem.set_ne _ _ (by omega)]
        · change p.off + p.len + e.length + 1 - q.off = _
          omega
      · exact absurd (text'.symm.trans binary) (by decide)
    · refine .inr ⟨⟨.badOperation, ?_⟩, none⟩
      simp only [add, base, post, total, text', Bool.false_eq_true, if_false]
      rw [if_neg absent, store 1 (by omega), eq]

/-- An element is the new last one, or there was no memory for it. -/
theorem push_rep {e : List Byte} (h : Rep p els) (can : CanPush p e)
    (fits : Fits p.sepBinary p.sep e) (alloc : Nat → Option (Mem Byte)) :
    (∃ q ret, p.push alloc e = (q, .ok ret) ∧ Rep q (els ++ [e]) ∧ Alike p q) ∨
      (∃ q err, p.push alloc e = (q, .error err) ∧ Rep q els ∧ Alike p q) ∧
        ∃ j, alloc j = none := by
  unfold push
  rcases posted_chars (posted_start h.stored can.full) alloc 0 e with
    ⟨q, ret, eq, posted⟩ | ⟨⟨q, err, eq, same, stored⟩, none⟩
  · rw [eq]
    rw [List.nil_append] at posted
    rcases add_posted h posted can fits (alloc e.length) with
      ⟨q', eq', rep, alike⟩ | ⟨⟨err, eq'⟩, none⟩
    · exact .inl ⟨q', 0, eq', rep, alike⟩
    · exact .inr ⟨⟨q, err, eq', h.same posted.same posted.stored, posted.same.alike⟩, _, none⟩
  · rw [eq]
    exact .inr ⟨⟨q, err, rfl, h.same same stored, same.alike⟩, none⟩

/-- From the end of an element the loop stops at its separator, or at the start. -/
theorem delScan_element {m : Mem Byte} {sep : Byte} {off t : Nat} (j part : Nat)
    (free : sep ∉ m.read (off + t) j) (border : t ≠ 0 → m (off + t - 1) = sep) :
    delScan m sep (off + t + j - 1) part (t + j + 1) = (t, part + j) := by
  induction j generalizing part with
  | zero =>
      rw [delScan]
      by_cases start : t = 0
      · simp [start]
      · rw [if_neg (by omega), Nat.add_zero, if_pos (border start)]
        simp
  | succ j ih =>
      have char : m (off + t + j) ≠ sep := by
        rw [Mem.read_append, Mem.read_one] at free
        simp at free
        exact fun same => free.2 same.symm
      rw [delScan, if_neg (by omega), show off + t + (j + 1) - 1 = off + t + j by omega, if_neg char,
        show t + (j + 1) = t + j + 1 by omega, ih]
      · congr 1
        omega
      · rw [Mem.read_append] at free
        exact fun inside => free (List.mem_append_left _ inside)

theorem read_split {m : Mem Byte} {off n : Nat} (l l' : List Byte)
    (read : m.read off n = l ++ l') :
    m.read off l.length = l ∧ m.read (off + l.length) l'.length = l' := by
  have size := congrArg List.length read
  rw [Mem.length_read, List.length_append] at size
  rw [size, Mem.read_append] at read
  exact List.append_inj read (by simp)

theorem text_last {es : List (List Byte)} {e : List Byte} (h : TextRep p (es ++ [e])) :
    p.len = (textBytes p.sep es).length + e.length + 1 ∧
      p.mem.read p.off (textBytes p.sep es).length = textBytes p.sep es ∧
      p.mem.read (p.off + (textBytes p.sep es).length) e.length = e := by
  have len := h.len
  have bytes := h.bytes
  simp only [textBytes_append, textBytes_cons, textBytes_nil, List.append_nil, List.length_append,
    List.length_singleton] at len bytes
  rw [← List.append_assoc, List.dropLast_concat] at bytes
  exact ⟨by omega, read_split _ _ bytes⟩

theorem binary_last {es : List (List Byte)} {e : List Byte} (h : BinaryRep p (es ++ [e])) :
    p.len = (binaryBytes es).length + e.length + 2 ∧
      p.mem.read p.off ((binaryBytes es).length - 1) = (binaryBytes es).tail ∧
      p.mem (p.off + (binaryBytes es).length + e.length) = .ofNat e.length ∧
      ((binaryBytes es).length ≠ 0 →
        p.mem (p.off + (binaryBytes es).length - 1) = .ofNat e.length) := by
  have len := h.len
  have bytes := h.bytes
  simp only [binaryBytes_append, binaryBytes_cons, binaryBytes_nil, List.append_nil,
    List.length_append, length_binaryElement] at len bytes
  refine ⟨by omega, ?_⟩
  cases parts : binaryBytes es with
  | nil =>
      rw [parts] at bytes
      obtain ⟨_, last⟩ := read_split e [.ofNat e.length] bytes
      simp only [List.length_singleton, Mem.read_one, List.cons.injEq, and_true] at last
      exact ⟨rfl, last, fun some => absurd rfl some⟩
  | cons x rest =>
      rw [parts] at bytes
      obtain ⟨before, element⟩ := read_split rest (binaryElement e) bytes
      obtain ⟨front, last⟩ := @read_split p.mem _ _ (.ofNat e.length :: e)
        [.ofNat e.length] element
      rw [List.length_cons, Mem.read_succ, List.cons.injEq] at front
      simp only [List.length_singleton, Mem.read_one, List.cons.injEq, and_true] at last
      refine ⟨before, ?_, fun _ => front.1⟩
      refine Eq.trans (congrArg p.mem ?_) last
      simp only [List.length_cons]
      omega

/-- A shorter path with the same bytes. -/
theorem stored_delTo (stored : Stored p) (len : Nat) (some : p.len ≠ 0) (less : len ≤ p.len)
    (part : Nat) :
    ∃ q, p.delTo len part = (q, .ok part) ∧ Stored q ∧ q.mem = p.mem ∧ q.off = p.off ∧
      q.len = len ∧ q.first = (if len = 0 then 0 else p.first) ∧ Alike p q := by
  rcases stored with ⟨_, _, none⟩ | ⟨b, base, fits, inside⟩
  · exact absurd none some
  · refine ⟨{ p with
      len := len
      first := if len = 0 then 0 else p.first
      keepPost := false
      base := .array { b with used := len } }, ?_, .inr ⟨_, rfl, ?_, Nat.le_refl _⟩, ?_, rfl, rfl,
      rfl, rfl, rfl⟩
    · simp only [delTo, base]
      rw [if_neg (by omega)]
    · exact Nat.le_trans less (Nat.le_trans inside fits)
    · simp [Path.mem, base]

/-- `mpt_path_del` takes away the last element. -/
theorem del_rep {es : List (List Byte)} {e : List Byte} (h : Rep p (es ++ [e])) :
    ∃ q, p.del = (q, .ok e.length) ∧ Rep q es ∧ Alike p q := by
  by_cases binary : p.sepBinary = true
  · have rep := h.binary binary
    have short := rep.short e (by simp)
    obtain ⟨len, before, last, border⟩ := binary_last rep
    have byte : (UInt8.ofNat e.length).toNat = e.length := by
      simp
      omega
    have size : (p.mem (p.len + p.off - 2)).toNat = e.length := by
      rw [show p.len + p.off - 2 = p.off + (binaryBytes es).length + e.length by omega, last, byte]
    have left : p.len - (e.length + 2) = (binaryBytes es).length := by omega
    have back : (if (binaryBytes es).length + p.off ≠ 0 then
        p.mem ((binaryBytes es).length + p.off - 1) else p.first).toNat = e.length := by
      by_cases none : (binaryBytes es).length = 0
      · have single : es = [] := by
          cases es with
          | nil => rfl
          | cons e' es => simp at none
        obtain ⟨same, before⟩ := rep.first e [] (by simp [single])
        rw [none, Nat.zero_add]
        by_cases start : p.off = 0
        · simpa [start] using same
        · rw [if_pos start, before start, same]
      · rw [if_pos (by omega), Nat.add_comm, border none, byte]
    obtain ⟨q, eq, stored, mem, off, len', first, alike⟩ :=
      stored_delTo h.stored (binaryBytes es).length (by omega) (by omega) e.length
    refine ⟨q, ?_, ⟨stored, fun text => ?_, fun _ => ?_⟩, alike⟩
    · unfold del
      rw [if_neg (by omega), if_pos binary]
      simp only [size, left, back]
      rw [if_neg (by omega), if_neg (not_not.mpr rfl), eq]
    · exact absurd (binary.symm.trans (alike.sepBinary.symm.trans text)) (by decide)
    · refine ⟨len', by rw [mem, off, len', before], ?_, fun e' mem => rep.short e' (by simp [mem])⟩
      rintro e₁ es' rfl
      obtain ⟨same, before⟩ := rep.first e₁ (es' ++ [e]) rfl
      rw [first, if_neg (by simp), mem, off]
      exact ⟨same, before⟩
  · have text : p.sepBinary = false := by simpa using binary
    have rep := h.text text
    obtain ⟨len, before, element⟩ := text_last rep
    obtain ⟨q, eq, stored, mem, off, len', first, alike⟩ :=
      stored_delTo h.stored (textBytes p.sep es).length (by omega) (by omega) e.length
    have scanned : delScan p.mem p.sep (p.len + p.off - 2) 0 p.len =
        ((textBytes p.sep es).length, e.length) := by
      have free : p.sep ∉ p.mem.read (p.off + (textBytes p.sep es).length) e.length := by
        rw [element]
        exact rep.free e (by simp)
      rw [show p.len + p.off - 2 = p.off + (textBytes p.sep es).length + e.length - 1 by omega, len,
        delScan_element e.length 0 free, Nat.zero_add]
      intro some
      obtain ⟨n, size⟩ := Nat.exists_eq_succ_of_ne_zero some
      have not_nil : es ≠ [] := by
        rintro rfl
        exact some rfl
      have full := @textBytes_last es p.sep not_nil
      rw [full] at before
      have last := (read_split _ [p.sep] before).2
      simp only [List.length_singleton, Mem.read_one, List.cons.injEq, and_true,
        List.length_dropLast] at last
      refine Eq.trans (congrArg p.mem ?_) last
      omega
    refine ⟨q, ?_, ⟨stored, fun _ => ?_, fun binary' => ?_⟩, alike⟩
    · unfold del
      rw [if_neg (by omega), if_neg binary]
      simp only [scanned]
      exact eq
    · refine ⟨by rw [len', alike.sep], ?_, ?_, ?_⟩
      · rw [mem, off, len', alike.sep, List.dropLast_eq_take]
        calc p.mem.read p.off ((textBytes p.sep es).length - 1)
            = (p.mem.read p.off (textBytes p.sep es).length).take
                ((textBytes p.sep es).length - 1) := by
              rw [Mem.take_read, Nat.min_eq_left (Nat.sub_le _ _)]
          _ = _ := by rw [before]
      · rw [first]
        cases es with
        | nil => exact .inl rfl
        | cons e₁ es' =>
            rw [if_neg (by simp)]
            rcases rep.first with zero | ⟨e', es'', eq, same⟩
            · exact .inl zero
            · obtain ⟨rfl, _⟩ := List.cons.inj eq
              exact .inr ⟨e₁, es', rfl, same⟩
      · intro e' mem
        rw [alike.sep]
        exact rep.free e' (by simp [mem])
    · exact absurd (text.symm.trans (alike.sepBinary.symm.trans binary')) (by decide)

/-- The bytes at the start of the path are those of the first element. -/
def AtStart (p : Path) (e : List Byte) : Prop := p.mem.read p.off e.length = e

theorem next_eq {n : Nat} (skip : Nat) (first : Byte) (base : p.base ≠ .null)
    (some : p.len ≠ 0)
    (binary : p.sepBinary = true → n = p.first.toNat ∧ skip = n + 2 ∧
      first = p.mem (p.off + n + 1))
    (text : p.sepBinary = false → skip = n + 1 ∧
      (p.first ≠ 0 ∧ n = p.first.toNat ∧ first = 0 ∨
        p.first = 0 ∧ first = 0 ∧ ((p.mem.read p.off (p.len - 1)).findIdx? (· = p.sep) = .some n ∨
          (p.mem.read p.off (p.len - 1)).findIdx? (· = p.sep) = none ∧ skip = p.len))) :
    p.next = ({ p with off := p.off + skip, len := p.len - skip, first := first }, .ok n) := by
  unfold next
  rw [if_neg some]
  split
  · rename_i null
    exact absurd null base
  by_cases format : p.sepBinary = true
  · obtain ⟨rfl, rfl, rfl⟩ := binary format
    rw [if_pos format]
  · obtain ⟨rfl, cached | ⟨zero, rfl, found⟩⟩ := text (by simpa using format)
    · obtain ⟨some, rfl, rfl⟩ := cached
      rw [if_neg format, if_pos some]
    · rw [if_neg format, if_neg (not_not.mpr zero)]
      rcases found with found | ⟨none, all⟩
      · rw [found]
        simp only [zero]
      · rw [none]
        simp only [zero, ← all, Nat.add_sub_cancel]

theorem Stored.array (h : Stored p) (some : p.len ≠ 0) :
    ∃ b, p.base = .array b ∧ b.used ≤ b.size ∧ p.len ≤ b.used := by
  rcases h with ⟨_, _, none⟩ | array
  · exact absurd none some
  · exact array

theorem findIdx?_sep {sep : Byte} {e rest : List Byte} (free : sep ∉ e) :
    (e ++ sep :: rest).findIdx? (· = sep) = some e.length := by
  rw [List.findIdx?_append, List.findIdx?_cons]
  have none : e.findIdx? (fun x => decide (x = sep)) = none := by
    rw [List.findIdx?_eq_none_iff]
    intro x mem
    exact decide_eq_false fun same => free (same ▸ mem)
  rw [none]
  simp

/-- `mpt_path_next` takes away the first element of a text, wherever the text is. -/
theorem next_text {es : List (List Byte)} {e : List Byte} (rep : TextRep p (e :: es))
    (text : p.sepBinary = false) (base : p.base ≠ .null) :
    ∃ q, p.next = (q, .ok e.length) ∧ AtStart p e ∧ TextRep q es ∧ Alike p q ∧ q.base = p.base ∧
      q.off = p.off + (e.length + 1) ∧ q.len = p.len - (e.length + 1) := by
  have len := rep.len
  rw [textBytes_cons, List.length_append, List.length_append, List.length_singleton] at len
  have free := rep.free e (by simp)
  have bytes : p.mem.read p.off (p.len - 1) =
      e ++ (if es = [] then [] else p.sep :: (textBytes p.sep es).dropLast) := by
    rw [rep.bytes]
    cases es with
    | nil => simp
    | cons e₁ es' =>
        have some : textBytes p.sep (e₁ :: es') ≠ [] := textBytes_ne_nil (by simp)
        rw [if_neg (by simp), textBytes_cons, List.append_assoc, List.singleton_append,
          List.dropLast_append_of_ne_nil (by simp), List.dropLast_cons_of_ne_nil some]
  obtain ⟨element, rest⟩ := read_split _ _ bytes
  refine ⟨_, next_eq (e.length + 1) 0 base (by omega)
    (fun binary => absurd (text.symm.trans binary) (by decide)) (fun _ => ⟨rfl, ?_⟩), element,
    ⟨?_, ?_, .inl rfl, fun e' mem => rep.free e' (by simp [mem])⟩, ⟨rfl, rfl⟩, rfl, rfl, rfl⟩
  · by_cases cached : p.first = 0
    · refine .inr ⟨cached, rfl, ?_⟩
      rw [bytes]
      by_cases single : es = []
      · refine .inr ⟨?_, ?_⟩
        · rw [if_pos single, List.append_nil, List.findIdx?_eq_none_iff]
          intro x mem
          exact decide_eq_false fun same => free (same ▸ mem)
        · rw [single, textBytes_nil, List.length_nil] at len
          omega
      · rw [if_neg single]
        exact .inl (findIdx?_sep free)
    · refine .inl ⟨cached, ?_, rfl⟩
      rcases rep.first with zero | ⟨e', es', eq, same⟩
      · exact absurd zero cached
      · obtain ⟨rfl, _⟩ := List.cons.inj eq
        exact same.symm
  · change p.len - (e.length + 1) = (textBytes p.sep es).length
    omega
  · change p.mem.read (p.off + (e.length + 1)) (p.len - (e.length + 1) - 1) = _
    by_cases single : es = []
    · rw [single, textBytes_nil, List.length_nil] at len
      rw [single, len]
      simp
    · rw [if_neg single, List.length_cons, Mem.read_succ, List.cons.injEq] at rest
      refine Eq.trans ?_ rest.2
      congr 1
      rw [List.length_dropLast]
      omega

/-- `mpt_path_next` takes away the first element between its lengths, wherever it is. -/
theorem next_binary {es : List (List Byte)} {e : List Byte} (rep : BinaryRep p (e :: es))
    (binary : p.sepBinary = true) (base : p.base ≠ .null) :
    ∃ q, p.next = (q, .ok e.length) ∧ AtStart p e ∧ BinaryRep q es ∧ Alike p q ∧ q.base = p.base ∧
      q.off = p.off + (e.length + 2) ∧ q.len = p.len - (e.length + 2) := by
  have len := rep.len
  rw [binaryBytes_cons, List.length_append, length_binaryElement] at len
  obtain ⟨size, _⟩ := rep.first e es rfl
  have bytes : p.mem.read p.off (p.len - 1) = e ++ (.ofNat e.length :: binaryBytes es) := by
    rw [rep.bytes]
    simp [binaryElement]
  obtain ⟨element, rest⟩ := read_split _ _ bytes
  rw [List.length_cons, Mem.read_succ, List.cons.injEq] at rest
  obtain ⟨border, rest⟩ := rest
  refine ⟨_, next_eq _ _ base (by omega) (fun _ => ⟨size.symm, rfl, rfl⟩)
    (fun text => absurd (binary.symm.trans text) (by decide)), element,
    ⟨?_, ?_, ?_, fun e' mem => rep.short e' (by simp [mem])⟩, ⟨rfl, rfl⟩, rfl, rfl, rfl⟩
  · change p.len - (e.length + 2) = _
    omega
  · change p.mem.read (p.off + (e.length + 2)) (p.len - (e.length + 2) - 1) = _
    cases es with
    | nil =>
        simp only [binaryBytes_nil, List.length_nil] at len
        simp [len]
    | cons e₁ es' =>
        simp only [binaryBytes_cons, binaryElement, List.cons_append, List.length_cons,
          Mem.read_succ, List.cons.injEq] at rest
        have shape := rest.2
        simp only [binaryBytes_cons, binaryElement, List.cons_append, List.tail_cons]
        refine Eq.trans ?_ shape
        congr 1
        simp only [binaryBytes_cons, List.length_append, length_binaryElement] at len
        simp only [List.length_append, List.length_cons, List.length_nil]
        omega
  · rintro e₁ es' rfl
    simp only [binaryBytes_cons, binaryElement, List.cons_append, List.length_cons,
      Mem.read_succ, List.cons.injEq] at rest
    have short := rep.short e₁ (by simp)
    refine ⟨?_, fun _ => ?_⟩
    · change (p.mem (p.off + e.length + 1)).toNat = _
      rw [rest.1]
      simp
      omega
    · change p.mem (p.off + (e.length + 2) - 1) = p.mem (p.off + e.length + 1)
      congr 1

/-- `mpt_path_next` takes away the first element. -/
theorem next_rep {es : List (List Byte)} {e : List Byte} (h : Rep p (e :: es)) :
    ∃ q, p.next = (q, .ok e.length) ∧ AtStart p e ∧ Rep q es ∧ Alike p q := by
  by_cases binary : p.sepBinary = true
  · have rep := h.binary binary
    have some : p.len ≠ 0 := by
      rw [rep.len, binaryBytes_cons, List.length_append, length_binaryElement]
      omega
    obtain ⟨b, base, fits, inside⟩ := h.stored.array some
    obtain ⟨q, eq, element, rest, alike, same, _, left⟩ :=
      next_binary rep binary (by rw [base]; exact PathBase.noConfusion)
    refine ⟨q, eq, element, ⟨.inr ⟨b, same.trans base, fits, by omega⟩,
      fun text => ?_, fun _ => rest⟩, alike⟩
    exact absurd (binary.symm.trans (alike.sepBinary.symm.trans text)) (by decide)
  · have text : p.sepBinary = false := by simpa using binary
    have rep := h.text text
    have some : p.len ≠ 0 := by
      rw [rep.len, textBytes_cons, List.length_append, List.length_append]
      simp
    obtain ⟨b, base, fits, inside⟩ := h.stored.array some
    obtain ⟨q, eq, element, rest, alike, same, _, left⟩ :=
      next_text rep text (by rw [base]; exact PathBase.noConfusion)
    refine ⟨q, eq, element, ⟨.inr ⟨b, same.trans base, fits, by omega⟩,
      fun _ => rest, fun binary => ?_⟩, alike⟩
    exact absurd (text.symm.trans (alike.sepBinary.symm.trans binary)) (by decide)

/-- `mpt_path_invalidate` only drops the post data. -/
theorem invalidate_rep (h : Rep p els) : Rep p.invalidate.1 els ∧ Alike p p.invalidate.1 := by
  unfold invalidate
  cases base : p.base with
  | null => exact ⟨h, Alike.refl p⟩
  | text m => exact ⟨h, Alike.refl p⟩
  | array b =>
      have stored : b.used ≤ b.size ∧ p.len ≤ b.used := by
        rcases h.stored with ⟨null, _⟩ | ⟨b', base', stored⟩
        · rw [base] at null
          cases null
        · rw [base] at base'
          cases base'
          exact stored
      simp only
      by_cases broken : b.used < p.off + p.len
      · rw [if_pos broken]
        exact ⟨h, Alike.refl p⟩
      · rw [if_neg broken]
        by_cases end_ : p.off + p.len = b.used
        · rw [if_pos end_]
          exact ⟨h.same ⟨rfl, rfl, rfl, rfl, rfl, rfl, fun _ _ => by simp [Path.mem, base]⟩
            (.inr ⟨b, rfl, stored⟩), rfl, rfl⟩
        · rw [if_neg end_]
          refine ⟨h.same ⟨rfl, rfl, rfl, rfl, rfl, rfl, fun i inside => ?_⟩
            (.inr ⟨_, rfl, ?_, Nat.le_add_left _ _⟩), rfl, rfl⟩
          · simp only [Path.mem, base, Store.set]
            exact Mem.set_ne _ _ (by omega)
          · simp only [Store.set]
            omega

/-- An operation.  Pushing an element asks for memory at most once for every byte, and once more. -/
inductive Op where
  | push (e : List Byte) (alloc : Nat → Option (Mem Byte))
  | del
  | next
  | invalidate

def apply (p : Path) : Op → Path × Except Error Nat
  | .push e alloc => p.push alloc e
  | .del => p.del
  | .next => p.next
  | .invalidate => p.invalidate

/-- What an operation does to a list of elements, and what it returns for it. -/
def Acts (p : Path) (els : List (List Byte)) (ret : Except Error Nat) (els' : List (List Byte)) :
    Op → Prop
  | .push e alloc => (∃ n, ret = .ok n) ∧ els' = els ++ [e] ∨
      (∃ err, ret = .error err) ∧ els' = els ∧ ∃ j, alloc j = none
  | .del => ret = .error .missingData ∧ els = [] ∧ els' = [] ∨
      ∃ e, ret = .ok e.length ∧ els = els' ++ [e]
  | .next => ret = .error .missingData ∧ els = [] ∧ els' = [] ∨
      ∃ e, ret = .ok e.length ∧ els = e :: els' ∧ AtStart p e
  | .invalidate => els' = els

/-- The path stands for a list at every point of a sequence of operations, and every
    operation acts on that list. -/
def Follows (p : Path) (els : List (List Byte)) : List Op → Prop
  | [] => Rep p els
  | op :: ops => Rep p els ∧ ∃ els', Acts p els (p.apply op).2 els' op ∧ Follows (p.apply op).1 els' ops

/-- The elements are such that the format can hold them. -/
def Allowed (sepBinary : Bool) (sep : Byte) (ops : List Op) : Prop :=
  ∀ e alloc, Op.push e alloc ∈ ops → Fits sepBinary sep e

/-- No element is added to a path in a state where that goes wrong. -/
def Clean (p : Path) : List Op → Prop
  | [] => True
  | op :: ops => (∀ e alloc, op = .push e alloc → CanPush p e) ∧ Clean (p.apply op).1 ops

theorem rep_nil_len (h : Rep p []) : p.len = 0 := by
  by_cases binary : p.sepBinary = true
  · exact (h.binary binary).len
  · exact (h.text (by simpa using binary)).len

theorem apply_acts (h : Rep p els) (op : Op)
    (can : ∀ e alloc, op = .push e alloc → CanPush p e ∧ Fits p.sepBinary p.sep e) :
    ∃ els', Acts p els (p.apply op).2 els' op ∧ Rep (p.apply op).1 els' ∧
      Alike p (p.apply op).1 := by
  cases op with
  | push e alloc =>
      obtain ⟨can, fits⟩ := can e alloc rfl
      rcases push_rep h can fits alloc with ⟨q, ret, eq, rep, alike⟩ | ⟨⟨q, err, eq, rep, alike⟩, none⟩
      · simp only [apply, eq]
        exact ⟨els ++ [e], .inl ⟨⟨ret, rfl⟩, rfl⟩, rep, alike⟩
      · simp only [apply, eq]
        exact ⟨els, .inr ⟨⟨err, rfl⟩, rfl, none⟩, rep, alike⟩
  | del =>
      rcases List.eq_nil_or_concat els with rfl | ⟨es, e, rfl⟩
      · have eq : p.del = (p, .error .missingData) := by simp [del, rep_nil_len h]
        simp only [apply, eq]
        exact ⟨[], .inl ⟨rfl, rfl, rfl⟩, h, Alike.refl p⟩
      · rw [List.concat_eq_append] at h ⊢
        obtain ⟨q, eq, rep, alike⟩ := del_rep h
        simp only [apply, eq]
        exact ⟨es, .inr ⟨e, rfl, rfl⟩, rep, alike⟩
  | next =>
      cases els with
      | nil =>
          have eq : p.next = (p, .error .missingData) := by simp [next, rep_nil_len h]
          simp only [apply, eq]
          exact ⟨[], .inl ⟨rfl, rfl, rfl⟩, h, Alike.refl p⟩
      | cons e es =>
          obtain ⟨q, eq, at_, rep, alike⟩ := next_rep h
          simp only [apply, eq]
          exact ⟨es, .inr ⟨e, rfl, rfl, at_⟩, rep, alike⟩
  | invalidate =>
      obtain ⟨rep, alike⟩ := invalidate_rep h
      exact ⟨els, rfl, rep, alike⟩

theorem follows (h : Rep p els) (ops : List Op) (allowed : Allowed p.sepBinary p.sep ops)
    (clean : Clean p ops) : Follows p els ops := by
  induction ops generalizing p els with
  | nil => exact h
  | cons op ops ih =>
      obtain ⟨can, clean⟩ := clean
      obtain ⟨els', acts, rep, alike⟩ := apply_acts h op fun e alloc push =>
        ⟨can e alloc push, allowed e alloc (by simp [push])⟩
      refine ⟨h, els', acts, ih rep ?_ clean⟩
      rw [alike.sepBinary, alike.sep]
      exact fun e alloc mem => allowed e alloc (List.mem_cons_of_mem _ mem)

theorem rep_init (sepBinary : Bool) (sep assign : Byte) : Rep (init sepBinary sep assign) [] :=
  ⟨.inl ⟨rfl, rfl, rfl⟩, fun _ => ⟨rfl, rfl, .inl rfl, fun _ mem => nomatch mem⟩,
    fun _ => ⟨rfl, rfl, fun _ _ eq => (nomatch eq), fun _ mem => nomatch mem⟩⟩

/-- A path behaves as a list of elements, in every sequence of operations that adds
    elements only where the path ends with its storage. -/
theorem path_list (sepBinary : Bool) (sep assign : Byte) (ops : List Op)
    (allowed : Allowed sepBinary sep ops) (clean : Clean (init sepBinary sep assign) ops) :
    Follows (init sepBinary sep assign) [] ops :=
  follows (rep_init sepBinary sep assign) ops allowed clean

/-- Memory that is there. -/
def zeroed (_ : Nat) : Option (Mem Byte) := some fun _ => 0

/-- Two elements in, and one out at each end. -/
theorem path_list_both_ends : Follows (init false 47 61) []
    [.push [97] zeroed, .push [98] zeroed, .next, .del] := by
  apply path_list
  · intro e alloc mem
    simp only [List.mem_cons, Op.push.injEq, List.not_mem_nil, or_false, reduceCtorEq] at mem
    rcases mem with ⟨rfl, _⟩ | ⟨rfl, _⟩ <;> simp [Fits]
  · refine ⟨?_, ?_, ?_, ?_, trivial⟩
    · rintro e alloc ⟨⟩
      exact ⟨fun _ => by simp, fun b base => (nomatch base), fun binary => (nomatch binary),
        fun _ _ => .inl (by decide)⟩
    · rintro e alloc ⟨⟩
      refine ⟨fun null => (nomatch null), fun b base => ?_, fun binary => (nomatch binary),
        fun _ empty => nomatch empty⟩
      cases base
      rfl
    · exact fun _ _ push => nomatch push
    · exact fun _ _ push => nomatch push

/-- An element cannot be added after one was taken away at each end: the storage was cut
    to the length of the path, without its offset. -/
theorem push_after_next_del : ¬ ∀ sepBinary sep assign ops, Allowed sepBinary sep ops →
    Follows (init sepBinary sep assign) [] ops := by
  intro all
  have run := all false 47 61
    [.push [97] zeroed, .push [98] zeroed, .next, .del, .push [99, 100] zeroed] (by
      intro e alloc mem
      simp only [List.mem_cons, Op.push.injEq, List.not_mem_nil, or_false, reduceCtorEq,
        false_or] at mem
      rcases mem with ⟨rfl, _⟩ | ⟨rfl, _⟩ | ⟨rfl, _⟩ <;> simp [Fits])
  obtain ⟨_, _, _, _, _, _, _, _, _, _, _, _, _, _, acts, _⟩ := run
  rcases acts with ⟨⟨n, ok⟩, _⟩ | ⟨_, _, j, none⟩
  · cases ok
  · cases none

end Mpt.Config.Path
