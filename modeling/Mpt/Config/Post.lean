import Mpt.Config.PathRun
import Mpt.Config.PathEnd

/-! # A text path while its next element is read

The characters of the next element gather behind a path, and become an element of it
when they are confirmed.  To the elements and the gathered bytes, every operation on
the buffer is an operation on lists.
-/

namespace Mpt.Config.Path

/-- `mpt_path_delchar`: the byte that is removed. -/
def delchar (p : Path) : Path × Except Error Byte :=
  match p.base with
  | .null => (p, .error .missingData)
  | .text _ => (p, .error .missingBuffer)
  | .array b =>
      -- intersects with used data
      if b.used ≤ p.off + p.len then (p, .error .missingData)
      else ({ p with base := .array { b with used := b.used - 1 } }, .ok (b.mem (b.used - 1)))

/-- The bytes of a path are its elements, with `cs` behind them. -/
structure Holds (p : Path) (els : List (List Byte)) (cs : List Byte) : Prop where
  text : p.sepBinary = false
  off : p.off = 0
  len : p.len = (textBytes p.sep els).length
  first : p.first = 0 ∨ ∃ e es, els = e :: es ∧ p.first = .ofNat e.length
  free : ∀ e ∈ els, p.sep ∉ e
  stored : (p.base = .null ∧ els = [] ∧ cs = []) ∨ ∃ b, p.base = .array b ∧ b.used ≤ b.size ∧
    b.used = p.len + cs.length ∧ b.mem.read 0 (p.len - 1) = (textBytes p.sep els).dropLast ∧
    b.mem.read p.len cs.length = cs

/-- What a character makes of the gathered bytes: it takes the place of the last one,
    until that is to be kept. -/
def gather (cs : List Byte) (keep : Bool) (c : Byte) : List Byte :=
  (if keep then cs else cs.dropLast) ++ [c]

variable {p q : Path} {els : List (List Byte)} {cs : List Byte}

theorem gather_keep (cs : List Byte) (c : Byte) : gather cs true c = cs ++ [c] := rfl

theorem gather_first (keep : Bool) (c : Byte) : gather [] keep c = [c] := by
  cases keep <;> rfl

theorem length_gather (cs : List Byte) (keep : Bool) (c : Byte) :
    cs.length ≤ (gather cs keep c).length ∧ 0 < (gather cs keep c).length := by
  cases keep with
  | true => simp [gather]
  | false =>
      simp [gather]
      omega

section Format

variable (p)

@[simp] theorem addchar_sep (c : Byte) (fresh : Option (Mem Byte)) : (p.addchar c fresh).1.sep = p.sep := by
  unfold addchar
  dsimp only
  repeat' split
  all_goals rfl

@[simp] theorem delchar_sep : p.delchar.1.sep = p.sep := by
  unfold delchar
  repeat' split
  all_goals rfl

@[simp] theorem valid_sep : p.valid.1.sep = p.sep := by
  unfold valid
  repeat' split
  all_goals rfl

@[simp] theorem invalidate_sep : p.invalidate.1.sep = p.sep := by
  unfold invalidate
  repeat' split
  all_goals rfl

@[simp] theorem add_sep (n : Nat) (fresh : Option (Mem Byte)) : (p.add n fresh).1.sep = p.sep := by
  unfold add
  dsimp only
  repeat' split
  all_goals rfl

end Format

namespace Holds

theorem init (sep assign : Byte) : Holds (Path.init false sep assign) [] [] :=
  ⟨rfl, rfl, rfl, .inl rfl, fun e mem => by simp at mem, .inl ⟨rfl, rfl, rfl⟩⟩

/-- The same elements in a buffer with other bytes behind them. -/
theorem rebase (h : Holds p els cs) {b : Store} {cs' : List Byte} (fits : b.used ≤ b.size)
    (used : b.used = p.len + cs'.length) (below : ∀ i < p.len, b.mem i = p.mem i)
    (behind : b.mem.read p.len cs'.length = cs') (keep : Bool) :
    Holds { p with base := .array b, keepPost := keep } els cs' := by
  refine ⟨h.text, h.off, h.len, h.first, h.free, .inr ⟨b, rfl, fits, used, ?_, behind⟩⟩
  rcases h.stored with ⟨_, rfl, _⟩ | ⟨b', base, _, _, bytes, _⟩
  · have len := h.len
    simp only [textBytes_nil, List.length_nil] at len
    simp [len]
  · rw [← bytes]
    refine Mem.read_congr fun i _ (high : i < 0 + (p.len - 1)) => ?_
    rw [below i (by omega)]
    simp only [Path.mem, base]

theorem keeping (h : Holds p els cs) (keep : Bool) : Holds { p with keepPost := keep } els cs :=
  ⟨h.text, h.off, h.len, h.first, h.free, h.stored⟩

/-- Without a buffer there is nothing in the path. -/
theorem null (h : Holds p els cs) (base : p.base = .null) : els = [] ∧ cs = [] ∧ p.len = 0 := by
  rcases h.stored with ⟨_, rfl, rfl⟩ | ⟨b, base', _⟩
  · exact ⟨rfl, rfl, h.len⟩
  · rw [base] at base'
    cases base'

/-- The bytes that were gathered are those in memory. -/
theorem behind (h : Holds p els cs) {n : Nat} (le : n ≤ cs.length) :
    p.mem.read (p.off + p.len) n = cs.take n := by
  rcases h.stored with ⟨base, _, rfl⟩ | ⟨b, base, _, _, _, behind⟩
  · obtain rfl : n = 0 := by simpa using le
    rfl
  · have mem : p.mem = b.mem := by simp [Path.mem, base]
    rw [mem, h.off, Nat.zero_add, ← behind, Mem.take_read, Nat.min_eq_left le]

theorem valid (h : Holds p els cs) :
    p.valid = ({ p with keepPost := if cs ≠ [] then true else p.keepPost }, .ok cs.length) := by
  have off := h.off
  rcases h.stored with ⟨base, _, rfl⟩ | ⟨b, base, _, used, _⟩
  · simp only [Path.valid, base]
    rw [← base]
    rfl
  · have post : b.used - (p.off + p.len) = cs.length := by omega
    simp only [Path.valid, base]
    rw [if_neg (by omega), post]
    simp [List.length_eq_zero_iff]

theorem addchar (h : Holds p els cs) (c : Byte) (fresh : Option (Mem Byte)) :
    (∃ q n, p.addchar c fresh = (q, .ok n) ∧ Holds q els (gather cs p.keepPost c) ∧
      q.keepPost = p.keepPost) ∨
    ∃ e, p.addchar c fresh = (p, .error e) ∧ fresh = none := by
  have off := h.off
  rcases h.stored with ⟨base, rfl, rfl⟩ | ⟨b, base, fits, used, _, behind⟩
  · cases fresh with
    | none => exact .inr ⟨.badOperation, by simp [Path.addchar, base], rfl⟩
    | some m =>
        have len : p.len = 0 := h.len
        refine .inl ⟨{ p with
          base := .array ((p.newStore m (p.off + p.len + 1)).set (p.off + p.len) c) }, 3,
          by simp only [Path.addchar, base], ?_, rfl⟩
        rw [gather_first]
        refine h.rebase (b := (p.newStore m (p.off + p.len + 1)).set (p.off + p.len) c) ?_ ?_
          (fun i inside => by omega) ?_ p.keepPost
        · simp only [Store.set, newStore, base]
          exact Store.le_allocSize _
        · simp only [Store.set, newStore, base]
          simp
          omega
        · simp [Store.set, off, Mem.read_one]
  · have mem : p.mem = b.mem := by simp [Path.mem, base]
    have some : cs ≠ [] ↔ p.off + p.len < b.used := by
      rw [← List.length_pos_iff]
      omega
    by_cases reuse : p.off + p.len < b.used ∧ p.keepPost = false
    · obtain ⟨more, fresh'⟩ := reuse
      obtain ⟨l, last, rfl⟩ := List.eq_nil_or_concat cs |>.resolve_left (some.mpr more)
      simp only [List.concat_eq_append, List.length_append, List.length_singleton] at used behind
      rw [Mem.read_append] at behind
      have before := (List.append_inj behind (by simp)).1
      refine .inl ⟨{ p with base := .array (b.set (b.used - 1) c) }, 0, ?_, ?_, rfl⟩
      · simp only [Path.addchar, base]
        rw [if_pos ⟨more, fresh'⟩]
      have gathered : gather (l.concat last) p.keepPost c = l ++ [c] := by
        simp [gather, fresh']
      rw [gathered]
      refine h.rebase (b := b.set (b.used - 1) c) fits ?_ (fun i inside => ?_) ?_ p.keepPost
      · simp only [Store.set, List.length_append, List.length_singleton]
        omega
      · simp only [Store.set]
        rw [Mem.set_ne _ _ (by omega), mem]
      · simp only [Store.set, List.length_append, List.length_singleton]
        rw [Mem.read_append, Mem.read_one, show b.used - 1 = p.len + l.length by omega,
          Mem.set_self, Mem.set, Mem.read_write_disjoint _ _ (.inl (by simp)), before]
    · have gathered : gather cs p.keepPost c = cs ++ [c] := by
        by_cases keep : p.keepPost = true
        · rw [keep, gather_keep]
        · have empty : cs = [] := by
            by_contra full
            exact reuse ⟨some.mp full, by simpa using keep⟩
          rw [empty, gather_first]
          rfl
      have grown {b' : Store} (fits : b'.used ≤ b'.size) (used' : b'.used = b.used + 1)
          (same : ∀ i < b.used, b'.mem i = b.mem i) :
          Holds { p with base := .array (b'.set b.used c) } els (cs ++ [c]) := by
        refine h.rebase (b := b'.set b.used c) fits ?_ (fun i inside => ?_) ?_ p.keepPost
        · simp only [Store.set, List.length_append, List.length_singleton]
          omega
        · simp only [Store.set]
          rw [Mem.set_ne _ _ (by omega), same i (by omega), mem]
        · simp only [Store.set, List.length_append, List.length_singleton]
          rw [Mem.read_append, Mem.read_one, show b.used = p.len + cs.length by omega,
            Mem.set_self, Mem.set, Mem.read_write_disjoint _ _ (.inl (by simp))]
          congr 1
          refine Eq.trans (Mem.read_congr fun i _ high => ?_) behind
          exact same i (by omega)
      rw [gathered]
      by_cases room : b.used < b.size
      · refine .inl ⟨{ p with base := .array { b.set b.used c with used := b.used + 1 } }, 1, ?_,
          @grown { b with used := b.used + 1 } room rfl fun _ _ => rfl, rfl⟩
        simp only [Path.addchar, base]
        rw [if_neg reuse, if_pos room]
      · rcases b.append_cases 1 fresh with ⟨b', eq, used', fits', same⟩ | ⟨eq, none⟩
        · refine .inl ⟨{ p with base := .array (b'.set b.used c) }, 2, ?_,
            grown fits' used' same, rfl⟩
          simp only [Path.addchar, base]
          rw [if_neg reuse, if_neg room, eq]
        · refine .inr ⟨.badArgument, ?_, none⟩
          simp only [Path.addchar, base]
          rw [if_neg reuse, if_neg room, eq]

/-- The last of the gathered bytes is removed, if there is one. -/
theorem delchar (h : Holds p els cs) :
    ∃ q r, p.delchar = (q, r) ∧ Holds q els cs.dropLast ∧ q.keepPost = p.keepPost := by
  have off := h.off
  rcases h.stored with ⟨base, rfl, rfl⟩ | ⟨b, base, fits, used, _, behind⟩
  · exact ⟨p, .error .missingData, by simp only [Path.delchar, base], h, rfl⟩
  · have mem : p.mem = b.mem := by simp [Path.mem, base]
    rcases List.eq_nil_or_concat cs with rfl | ⟨l, last, rfl⟩
    · refine ⟨p, .error .missingData, ?_, h, rfl⟩
      simp only [Path.delchar, base]
      rw [if_pos (by simp at used; omega)]
    · simp only [List.concat_eq_append, List.length_append, List.length_singleton] at used behind
      rw [Mem.read_append] at behind
      refine ⟨{ p with base := .array { b with used := b.used - 1 } }, .ok (b.mem (b.used - 1)),
        ?_, ?_, rfl⟩
      · simp only [Path.delchar, base]
        rw [if_neg (by omega)]
      · rw [List.concat_eq_append, List.dropLast_concat]
        refine h.rebase (b := { b with used := b.used - 1 }) ?_ ?_ (fun i _ => by rw [mem]) ?_
          p.keepPost
        · show b.used - 1 ≤ b.size
          omega
        · show b.used - 1 = _
          omega
        · exact (List.append_inj behind (by simp)).1

/-- All gathered bytes are dropped. -/
theorem invalidate (h : Holds p els cs) :
    ∃ q n, p.invalidate = (q, .ok n) ∧ Holds q els [] ∧ (p.keepPost = false → q.keepPost = false) := by
  have off := h.off
  rcases h.stored with ⟨base, rfl, rfl⟩ | ⟨b, base, fits, used, _, behind⟩
  · have len : p.len = 0 := h.len
    exact ⟨p, 0, by simp [Path.invalidate, base, off, len], h, id⟩
  · have mem : p.mem = b.mem := by simp [Path.mem, base]
    by_cases none : cs = []
    · subst none
      refine ⟨_, 0, ?_, h.keeping false, fun _ => rfl⟩
      simp only [Path.invalidate, base]
      rw [if_neg (by omega), if_pos (by simp at used; omega)]
    · have some := List.length_pos_iff.mpr none
      refine ⟨{ p with
        base := .array { b.set (p.off + p.len) 0 with used := p.off + p.len }
        keepPost := false }, 1, ?_, ?_, fun _ => rfl⟩
      · simp only [Path.invalidate, base]
        rw [if_neg (by omega), if_neg (by omega)]
      · refine h.rebase (b := { b.set (p.off + p.len) 0 with used := p.off + p.len }) ?_ ?_
          (fun i inside => ?_) rfl false
        · show p.off + p.len ≤ b.size
          omega
        · show p.off + p.len = p.len + 0
          omega
        · rw [mem]
          exact Mem.set_ne _ _ (by omega)

/-- The first bytes that were gathered become an element, and the one behind them goes to its
    separator. -/
theorem add (h : Holds p els cs) {n : Nat} (le : n ≤ cs.length) (fresh : Option (Mem Byte)) :
    (∃ q, p.add n fresh = (q, .ok 0) ∧ Holds q (els ++ [cs.take n]) (cs.drop (n + 1)) ∧
      q.keepPost = false ∧ q.sep = p.sep ∧ p.sep ∉ cs.take n) ∨
    ∃ e, p.add n fresh = (p, .error e) ∧ (p.base = .null ∨ p.sep ∈ cs.take n ∨ fresh = none) := by
  have off := h.off
  rcases h.stored with ⟨base, rfl, rfl⟩ | ⟨b, base, fits, used, bytes, behind⟩
  · exact .inr ⟨.missingBuffer, by simp only [Path.add, base], .inl base⟩
  · have mem : p.mem = b.mem := by simp [Path.mem, base]
    have named : p.mem.read (p.off + p.len) n = cs.take n := h.behind le
    have named' : b.mem.read p.len n = cs.take n := by
      rw [← mem, ← named, off, Nat.zero_add]
    have post : p.addPost n = .ok (cs.length - n) := by
      simp only [addPost, base]
      rw [if_neg (by omega), if_neg (by omega)]
      congr 1
      omega
    by_cases absent : p.sep ∈ cs.take n
    · refine .inr ⟨.badValue, ?_, .inr (.inl absent)⟩
      simp only [Path.add, base, post, h.text, Bool.false_eq_true, if_false, named]
      rw [if_pos absent]
    · have granted {b' : Store} (store : p.addStore n 1 (cs.length - n) fresh = some b')
          (fits' : b'.used ≤ b'.size) (used' : b'.used = p.len + max cs.length (n + 1))
          (same : ∀ i < b.used, b'.mem i = b.mem i) :
          ∃ q, p.add n fresh = (q, .ok 0) ∧ Holds q (els ++ [cs.take n]) (cs.drop (n + 1)) ∧
            q.keepPost = false ∧ q.sep = p.sep ∧ p.sep ∉ cs.take n := by
        refine ⟨{ p with
          base := .array ((p.border b' p.sep).set (p.off + p.len + n) p.assign)
          first := if p.off + p.len ≠ 0 then p.first else .ofNat n
          len := p.off + p.len + n + 1 - p.off
          keepPost := false }, ?_, ?_, rfl, rfl, absent⟩
        · simp only [Path.add, base, post, h.text, Bool.false_eq_true, if_false, border, named]
          rw [if_neg absent, store]
          simp only [Path.rebase, base]
        · have at_ (i : Nat) (inside : i < p.len + n) (other : i + 1 ≠ p.len) :
              ((p.border b' p.sep).set (p.off + p.len + n) p.assign).mem i = b'.mem i := by
            simp only [Store.set]
            rw [Mem.set_ne _ _ (by omega)]
            unfold border
            split
            · exact Mem.set_ne _ _ (by omega)
            · rfl
          have long : n = (cs.take n).length := by
            simp
            omega
          have sealed : Sealed p ((p.border b' p.sep).set (p.off + p.len + n) p.assign).mem
              (cs.take n) p.sep := by
            refine ⟨fun i inside => ?_, fun some => ?_, ?_⟩
            · rw [at_ i (by omega) (by omega), same i (by omega), mem]
            · simp only [Store.set, border]
              rw [if_pos some, Mem.set_ne _ _ (by omega)]
              exact Mem.set_self _ _ _
            · refine Eq.trans (Mem.read_congr fun i low high => ?_) (by rw [← long, named])
              rw [at_ i (by omega) (by omega), same i (by omega), mem]
          have all : ((p.border b' p.sep).set (p.off + p.len + n) p.assign).mem.read 0 p.len =
              textBytes p.sep els := by
            have size := h.len
            by_cases none : p.len = 0
            · rw [none] at size ⊢
              rw [List.eq_nil_of_length_eq_zero size.symm]
              rfl
            · have read := sealed.read none
              rw [show p.mem.read p.off (p.len - 1) = (textBytes p.sep els).dropLast by
                rw [mem, off, bytes]] at read
              conv_lhs => rw [← off]
              rw [read]
              refine (textBytes_last ?_).symm
              rintro rfl
              exact none size
          have element := sealed.element
          rw [← long] at element
          refine ⟨h.text, off, ?_, ?_, ?_, .inr ⟨_, rfl, ?_, ?_, ?_, ?_⟩⟩
          · simp only [textBytes_append, textBytes_cons, textBytes_nil, List.length_append]
            rw [← h.len, ← long]
            simp
            omega
          · simp only
            by_cases start : p.off + p.len = 0
            · have nothing : els = [] := by
                by_contra some
                have := List.length_pos_iff.mpr (@textBytes_ne_nil els p.sep some)
                have := h.len
                omega
              rw [if_neg (not_not.mpr start), nothing]
              exact .inr ⟨cs.take n, [], rfl, by rw [← long]⟩
            · rw [if_pos start]
              rcases h.first with zero | ⟨e, es, rfl, eq⟩
              · exact .inl zero
              · exact .inr ⟨e, es ++ [cs.take n], rfl, eq⟩
          · intro e inside
            rcases List.mem_append.mp inside with inside | inside
            · exact h.free e inside
            · rw [List.mem_singleton.mp inside]
              exact absent
          · simpa [Store.set] using fits'
          · simp only [Store.set, border_used, List.length_drop]
            omega
          · rw [show p.off + p.len + n + 1 - p.off - 1 = p.len + n by omega, Mem.read_append, all,
              show 0 + p.len = p.off + p.len by omega, element]
            simp [← List.append_assoc]
          · rw [show p.off + p.len + n + 1 - p.off = p.len + (n + 1) by omega, List.length_drop]
            have rest := congrArg (List.drop (n + 1)) behind
            by_cases more : n + 1 ≤ cs.length
            · rw [Mem.drop_read _ _ _ _ more] at rest
              refine Eq.trans (Mem.read_congr fun i (low : p.len + (n + 1) ≤ i)
                (high : i < p.len + (n + 1) + (cs.length - (n + 1))) => ?_) rest
              simp only [Store.set]
              rw [Mem.set_ne _ _ (by omega)]
              refine Eq.trans ?_ (same i (by omega))
              unfold border
              split
              · exact Mem.set_ne _ _ (by omega)
              · rfl
            · rw [show cs.length - (n + 1) = 0 by omega, List.drop_eq_nil_of_le (by omega)]
              rfl
      by_cases room : cs.length - n < 1
      · rcases b.append_cases (1 - (cs.length - n)) fresh with
          ⟨b', eq, used', fits', same⟩ | ⟨eq, none⟩
        · refine .inl (granted ?_ fits' (by omega) same)
          simp only [addStore, base]
          rw [if_pos room, eq]
        · refine .inr ⟨.badOperation, ?_, .inr (.inr none)⟩
          simp only [Path.add, base, post, h.text, Bool.false_eq_true, if_false, named, addStore]
          rw [if_neg absent, if_pos room, eq]
      · refine .inl (granted ?_ fits (by omega) fun _ _ => rfl)
        simp only [addStore, base]
        rw [if_neg room]

/-- The elements before the last, and the last one, in memory. -/
theorem split {es : List (List Byte)} {e : List Byte} (h : Holds p (es ++ [e]) cs) :
    ∃ b, p.base = .array b ∧ p.len = (textBytes p.sep es).length + e.length + 1 ∧
      b.mem.read 0 (textBytes p.sep es).length = textBytes p.sep es ∧
      b.mem.read (textBytes p.sep es).length e.length = e ∧
      ((textBytes p.sep es).length ≠ 0 → b.mem ((textBytes p.sep es).length - 1) = p.sep) := by
  have len := h.len
  rcases h.stored with ⟨_, none, _⟩ | ⟨b, base, _, _, bytes, _⟩
  · simp at none
  · simp only [textBytes_append, textBytes_cons, textBytes_nil, List.append_nil,
      List.length_append, List.length_singleton] at len bytes
    rw [show p.len - 1 = (textBytes p.sep es).length + e.length by omega, ← List.append_assoc,
      List.dropLast_concat, Mem.read_append] at bytes
    obtain ⟨front, last⟩ := List.append_inj bytes (by simp)
    refine ⟨b, base, by omega, front, by simpa using last, fun some => ?_⟩
    have full : es ≠ [] := by
      rintro rfl
      exact some rfl
    obtain ⟨n, size⟩ := Nat.exists_eq_succ_of_ne_zero some
    rw [textBytes_last full] at front size
    simp only [List.length_append, List.length_singleton, Nat.succ_eq_add_one,
      Nat.add_right_cancel_iff] at size
    rw [List.length_append, List.length_singleton, Mem.read_append] at front
    have border := (List.append_inj front (by simp)).2
    rw [Mem.read_one, List.cons.injEq, Nat.zero_add] at border
    rw [textBytes_last full, List.length_append, List.length_singleton, Nat.add_sub_cancel]
    exact border.1

/-- The last element is removed, with everything behind it. -/
theorem del {es : List (List Byte)} {e : List Byte} (h : Holds p (es ++ [e]) cs) :
    ∃ q, p.del = (q, .ok e.length) ∧ Holds q es [] ∧ q.keepPost = false ∧ q.sep = p.sep := by
  obtain ⟨b, base, len, front, last, border⟩ := h.split
  have off := h.off
  have mem : p.mem = b.mem := by simp [Path.mem, base]
  have inside : p.len ≤ b.used ∧ b.used ≤ b.size := by
    rcases h.stored with ⟨null, _⟩ | ⟨b', base', fits, used, _⟩
    · rw [base] at null
      cases null
    · rw [base] at base'
      cases base'
      omega
  have free := h.free e (by simp)
  have scan := @delScan_element p.mem p.sep p.off (textBytes p.sep es).length e.length 0
    (by rw [mem, off, Nat.zero_add, last]; exact free)
    (by rw [mem, off, Nat.zero_add]; exact border)
  refine ⟨{ p with
    len := (textBytes p.sep es).length
    first := if (textBytes p.sep es).length = 0 then 0 else p.first
    keepPost := false
    base := .array { b with used := (textBytes p.sep es).length } }, ?_, ?_, rfl, rfl⟩
  · unfold Path.del
    rw [if_neg (by omega), if_neg (by simp [h.text]),
      show p.len + p.off - 2 = p.off + (textBytes p.sep es).length + e.length - 1 by omega, len, scan]
    simp only [delTo, base]
    rw [if_neg (by omega), Nat.zero_add]
  · refine ⟨h.text, off, rfl, ?_, fun e' mem' => h.free e' (by simp [mem']), .inr ⟨_, rfl, ?_, rfl, ?_, rfl⟩⟩
    · simp only
      by_cases none : (textBytes p.sep es).length = 0
      · exact .inl (if_pos none)
      · rw [if_neg none]
        rcases h.first with zero | ⟨e', es', eq, size⟩
        · exact .inl zero
        · cases es with
          | nil => exact absurd rfl none
          | cons e₁ es₁ =>
              obtain ⟨rfl, _⟩ := List.cons.inj eq
              exact .inr ⟨e₁, es₁, rfl, size⟩
    · show (textBytes p.sep es).length ≤ b.size
      omega
    · have read := congrArg List.dropLast front
      simp only
      rw [← read, List.dropLast_eq_take, Mem.take_read, Mem.length_read, Nat.min_eq_left (by omega)]

/-- The name of a path is that of its last element, as far as one byte can count it. -/
theorem lastName {es : List (List Byte)} {e : List Byte} (h : Holds p (es ++ [e]) cs) :
    p.lastName = some (e.take (e.length % 256)) := by
  obtain ⟨b, base, len, _, last, border⟩ := h.split
  have off := h.off
  have mem : p.mem = b.mem := by simp [Path.mem, base]
  have free := h.free e (by simp)
  obtain ⟨i, le, scan, ends⟩ := lastScan_spec p.mem p.sep (p.len - 1) 0
  have here : EndsWith p.mem p.sep (p.len - 1) e.length := by
    refine ⟨by omega, fun j low high same => ?_, ?_⟩
    · have there : p.mem j ∈ b.mem.read (textBytes p.sep es).length e.length := by
        refine List.mem_iff_getElem?.mpr ⟨j - (textBytes p.sep es).length, ?_⟩
        rw [Mem.getElem?_read _ _ _ _ (by omega), mem]
        congr 2
        omega
      rw [last, same] at there
      exact free there
    · by_cases none : (textBytes p.sep es).length = 0
      · exact .inl (by omega)
      · refine .inr ?_
        rw [mem, ← border none]
        congr 1
        omega
  have size := ends.unique here
  unfold Path.lastName
  rw [(last_text (by omega) h.text (by simp [base]) scan).1]
  simp only [Option.map_some, Option.some.injEq]
  show p.mem.read (p.off + i) (UInt8.ofNat (0 + (p.len - 1 - i))).toNat = _
  rw [mem, off, Nat.zero_add, Nat.zero_add, size, show i = (textBytes p.sep es).length by omega,
    UInt8.toNat_ofNat', ← last, Mem.take_read]
  simp
  rw [Nat.min_eq_left (Nat.mod_le _ _)]

end Holds

end Mpt.Config.Path
