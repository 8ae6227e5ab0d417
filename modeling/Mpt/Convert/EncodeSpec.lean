import Mpt.Convert.Encode

/-! # What one encoder call does

A call appends the split of the consumed bytes to the target.  The exception is
a block that reaches its maximal size with the last byte of the target: the
encoder then takes the byte back, but not the space it used.
-/

namespace Mpt.Cobs

variable {v : Variant}

/-- Among the bytes `src` is one that completes a block of maximal size on the
    last of the `room` bytes from the start of the open block `o`. -/
def Overrun (v : Variant) (o : List Byte) (room : Nat) (src : List Byte) : Prop :=
  ∃ p x q, src = p ++ x :: q ∧ x ≠ 0 ∧ (split v o p).2.length + 2 = v.maxlen ∧
    splitSize v (split v o p) + 1 = room

theorem splitSize_add (b : Block) (s : List Block × List Byte) :
    splitSize v (addBlock b s) = b.data.length + 1 + splitSize v s := by
  simp [splitSize, addBlock, Nat.add_assoc]

theorem le_splitSize (o p : List Byte) : o.length + 1 ≤ splitSize v (split v o p) := by
  fun_induction split v o p with
  | case1 o => simp [splitSize]
  | case2 o => simp [splitSize_add]
  | case3 o next rest _ ih => simp [splitSize_add]
  | case4 o next rest _ ih => simp [splitSize_add]
  | case5 o c src _ _ ih => simp [splitSize_add]; omega
  | case6 o c src _ _ ih => simp at ih; omega

@[simp] theorem not_overrun_nil (o : List Byte) (room : Nat) : ¬ Overrun v o room [] := by
  rintro ⟨p, x, q, eq, _⟩
  simp at eq

/-- No byte fits, so none is the last to fit. -/
theorem not_overrun_full (o src : List Byte) : ¬ Overrun v o (o.length + 1) src := by
  rintro ⟨p, x, q, _, _, _, size⟩
  have := le_splitSize (v := v) o p
  omega

theorem open_le_split (o p : List Byte) : (split v o p).2.length ≤ o.length + p.length := by
  fun_induction split v o p with
  | case1 o => simp
  | case2 o => simp [addBlock]
  | case3 o next rest _ ih => simp [addBlock] at ih ⊢; omega
  | case4 o next rest _ ih => simp [addBlock] at ih ⊢; omega
  | case5 o c src _ _ ih => simp [addBlock] at ih ⊢; omega
  | case6 o c src _ _ ih => simp at ih ⊢; omega

/-- Too little data for a block of maximal size. -/
theorem not_overrun_short {o src : List Byte} (room : Nat)
    (short : o.length + src.length + 1 < v.maxlen) : ¬ Overrun v o room src := by
  rintro ⟨p, x, q, rfl, _, full, _⟩
  have := open_le_split (v := v) o p
  simp at short
  omega

theorem overrun_zero {o : List Byte} {room : Nat} {src : List Byte}
    (single : ∀ next rest, src = next :: rest → ¬ v.Paired o.length next) :
    Overrun v o (o.length + 1 + room) (0 :: src) ↔ Overrun v [] room src := by
  have step : ∀ p q, src = p ++ q → split v o (0 :: p) = addBlock ⟨o, .zero⟩ (split v [] p) := by
    intro p q eq
    cases p with
    | nil => simp [split]
    | cons next rest =>
        have := single next (rest ++ q) eq
        simp [split, this]
  constructor
  · rintro ⟨p, x, q, eq, data, full, size⟩
    cases p with
    | nil => simp_all
    | cons c p =>
        obtain ⟨rfl, rest⟩ := List.cons.inj eq
        rw [step p (x :: q) rest] at full size
        rw [splitSize_add] at size
        exact ⟨p, x, q, rest, data, full, by simp only at size; omega⟩
  · rintro ⟨p, x, q, eq, data, full, size⟩
    refine ⟨0 :: p, x, q, by rw [eq]; rfl, data, ?_⟩
    rw [step p (x :: q) eq, splitSize_add]
    exact ⟨full, by simp only; omega⟩

theorem overrun_pair {o : List Byte} {room : Nat} {next : Byte} {rest : List Byte}
    (paired : v.Paired o.length next) :
    Overrun v o (o.length + 1 + room) (0 :: next :: rest) ↔ Overrun v [] room rest := by
  have step : ∀ p, split v o (0 :: next :: p) = addBlock ⟨o, .pair⟩ (split v [] p) := by
    intro p
    simp [split, paired]
  constructor
  · rintro ⟨p, x, q, eq, data, full, size⟩
    cases p with
    | nil =>
        obtain ⟨rfl, _⟩ := List.cons.inj eq
        exact absurd rfl data
    | cons c p =>
        cases p with
        | nil =>
            obtain ⟨_, _, rfl⟩ : 0 = c ∧ next = x ∧ rest = q := by simpa using eq
            exact absurd (by simp_all [Variant.Paired]) data
        | cons c' p =>
            obtain ⟨rfl, rfl, rfl⟩ : 0 = c ∧ next = c' ∧ rest = p ++ x :: q := by simpa using eq
            rw [step p] at full size
            rw [splitSize_add] at size
            exact ⟨p, x, q, rfl, data, full, by simp only at size; omega⟩
  · rintro ⟨p, x, q, rfl, data, full, size⟩
    refine ⟨0 :: next :: p, x, q, rfl, data, ?_⟩
    rw [step p, splitSize_add]
    exact ⟨full, by simp only; omega⟩

theorem overrun_full {o : List Byte} {room : Nat} {c : Byte} {src : List Byte} (data : c ≠ 0)
    (full : o.length + 2 = v.maxlen) :
    Overrun v o (o.length + 2 + room) (c :: src) ↔ room = 0 ∨ Overrun v [] room src := by
  constructor
  · rintro ⟨p, x, q, eq, data', full', size⟩
    cases p with
    | nil =>
        simp only [split, splitSize, encoded_nil, length_opened, List.length_nil] at size
        exact .inl (by omega)
    | cons c' p =>
        obtain ⟨rfl, rfl⟩ := List.cons.inj eq
        rw [split_full data full] at full' size
        rw [splitSize_add] at size
        exact .inr ⟨p, x, q, rfl, data', full', by simp at size; omega⟩
  · rintro (rfl | ⟨p, x, q, rfl, data', full', size⟩)
    · exact ⟨[], c, src, rfl, data, full, by simp [split, splitSize]⟩
    · refine ⟨c :: p, x, q, rfl, data', ?_⟩
      rw [split_full data full, splitSize_add]
      exact ⟨full', by simp; omega⟩

theorem overrun_data {o : List Byte} {room : Nat} {c : Byte} {src : List Byte} (data : c ≠ 0)
    (short : o.length + 2 ≠ v.maxlen) :
    Overrun v o room (c :: src) ↔ Overrun v (o ++ [c]) room src := by
  constructor
  · rintro ⟨p, x, q, eq, data', full, size⟩
    cases p with
    | nil => exact absurd full (by simpa [split] using short)
    | cons c' p =>
        obtain ⟨rfl, rfl⟩ := List.cons.inj eq
        rw [split_data data short] at full size
        exact ⟨p, x, q, rfl, data', full, size⟩
  · rintro ⟨p, x, q, rfl, data', full, size⟩
    refine ⟨c :: p, x, q, rfl, data', ?_⟩
    rw [split_data data short]
    exact ⟨full, size⟩

/-- A split that goes on behind another one. -/
def join (s t : List Block × List Byte) : List Block × List Byte := (s.1 ++ t.1, t.2)

theorem join_addBlock (b : Block) (s t : List Block × List Byte) :
    join (addBlock b s) t = addBlock b (join s t) := rfl

theorem splitSize_join (s t : List Block × List Byte) :
    splitSize v (join s t) = (encoded v s.1).length + splitSize v t := by
  simp [splitSize, join, Nat.add_assoc]

/-- Splitting `p` and then what follows it in `q` is splitting both at once: no pair
    of zeros is divided between them. -/
def Apart (v : Variant) (o p q : List Byte) : Prop :=
  ∀ r, r <+: q → split v o (p ++ r) = join (split v o p) (split v (split v o p).2 r)

theorem apart_nil (v : Variant) (o q : List Byte) : Apart v o [] q := fun _ _ => rfl

theorem Apart.add {o p q c : List Byte} {b : Block} (h : Apart v [] p q)
    (step : ∀ r, r <+: q → split v o (c ++ (p ++ r)) = addBlock b (split v [] (p ++ r))) :
    Apart v o (c ++ p) q := by
  intro r part
  have first : split v o (c ++ p) = addBlock b (split v [] p) := by
    simpa using step [] (List.nil_prefix)
  rw [List.append_assoc, step r part, h r part, first, join_addBlock]
  rfl

/-- What overruns in the rest overruns in the whole. -/
theorem Apart.overrun {o p q : List Byte} (h : Apart v o p q) {room : Nat}
    (excess : Overrun v (split v o p).2 room q) :
    Overrun v o ((encoded v (split v o p).1).length + room) (p ++ q) := by
  obtain ⟨r, x, rest, rfl, data, full, size⟩ := excess
  refine ⟨p ++ r, x, rest, by simp, data, ?_⟩
  rw [h r (List.prefix_append _ _), splitSize_join]
  exact ⟨full, by omega⟩

/-- How the block loop ends: it has stored the split of the bytes it has read. -/
structure EncodeExit.Stored (v : Variant) (r : EncodeExit) (m : Mem Byte) (start room : Nat)
    (o src p q : List Byte) : Prop where
  read : src = p ++ q
  rest : r.len = q.length
  finished : q = [] ∨ r.left = 0
  code : r.code = (split v o p).2.length + 1
  size : r.left + splitSize v (split v o p) = room
  mem : r.mem = m.write start (encoded v (split v o p).1 ++ opened (split v o p).2)
  apart : Apart v o p q

/-- A byte in front of data that is already in place. -/
theorem set_front {m : Mem Byte} {start : Nat} {o : List Byte}
    (data : m.read (start + 1) o.length = o) (x : Byte) : m.set start x = m.write start (x :: o) := by
  have same : ((m.set start x).read (start + 1) o.length) = o := by
    rw [Mem.set, Mem.read_write_disjoint _ _ (.inr (by simp)), data]
  rw [Mem.write_cons]
  conv_rhs => rw [← same]
  simp

/-- One more data byte behind the open block. -/
theorem read_grow {m : Mem Byte} {a : Nat} {o : List Byte} (data : m.read a o.length = o)
    (c : Byte) : (m.set (a + o.length) c).read a (o ++ [c]).length = o ++ [c] := by
  have before : (m.set (a + o.length) c).read a o.length = o := by
    rw [Mem.set, Mem.read_write_disjoint _ _ (.inl (Nat.le_refl _)), data]
  rw [List.length_append, List.length_singleton, Mem.read_append, before, Mem.read_one,
    Mem.set_self]

theorem EncodeExit.Stored.add {r : EncodeExit} {m : Mem Byte} {start room : Nat}
    {o src p q : List Byte} {b : Block} {c : List Byte}
    (h : r.Stored v (m.write start (b.bytes v)) (start + (b.data.length + 1)) room [] src p q)
    (steps : ∀ t, t <+: q → split v o (c ++ (p ++ t)) = addBlock b (split v [] (p ++ t))) :
    r.Stored v m start (b.data.length + 1 + room) o (c ++ src) (c ++ p) q := by
  have step : split v o (c ++ p) = addBlock b (split v [] p) := by
    simpa using steps [] List.nil_prefix
  refine ⟨by rw [h.read, List.append_assoc], h.rest, h.finished, by rw [step]; exact h.code, ?_, ?_,
    h.apart.add steps⟩
  · rw [step, splitSize_add]
    have := h.size
    omega
  · rw [step, h.mem]
    simp only [addBlock, encoded_cons, List.append_assoc]
    rw [Mem.write_append m start (b.bytes v), Block.length_bytes]

/-- The block loop stores the split of what it reads, and stops only at the end
    of the source or of the target. -/
theorem encodeLoop_stored (m : Mem Byte) (start dst code left : Nat) (src : List Byte)
    {o : List Byte} (short : Short v o) (isCode : code = o.length + 1) (pos : dst = start + code)
    (data : m.read (start + 1) o.length = o)
    (clean : ¬ Overrun v o (o.length + 1 + left) src) :
    ∃ p q, (encodeLoop v m dst code left src).Stored v m start (o.length + 1 + left) o src p q := by
  fun_induction encodeLoop v m dst code left src generalizing o start with
  | case1 m dst code left =>
      have at_start : dst - code = start := by omega
      refine ⟨[], [], rfl, rfl, .inl rfl, isCode, ?_, ?_, apart_nil _ _ _⟩
      · simp [split, splitSize]
        omega
      · rw [at_start, set_front data, isCode]
        rfl
  | case2 m dst code curr src =>
      have at_start : dst - code = start := by omega
      refine ⟨[], curr :: src, rfl, rfl, .inr rfl, isCode, ?_, ?_, apart_nil _ _ _⟩
      · simp [split, splitSize]
      · rw [at_start, set_front data, isCode]
        rfl
  | case3 m dst code left some ih =>
      have at_start : dst - code = start := by omega
      have room : 0 + 1 + (left - 1) = left := by omega
      rw [at_start, set_front data, isCode] at ih
      obtain ⟨p, q, h⟩ := ih (start + (o.length + 1)) (short_nil v) rfl (by omega) rfl (by simp)
      rw [List.length_nil, room] at h
      obtain ⟨rfl, rfl⟩ : p = [] ∧ q = [] := List.append_eq_nil_iff.mp h.read.symm
      rw [at_start, set_front data, isCode]
      exact ⟨_, _, h.add (b := ⟨o, .zero⟩) (c := [0]) (by simp [split])⟩
  | case4 m dst code left some next rest paired ih =>
      have at_start : dst - code = start := by omega
      have room : 0 + 1 + (left - 1) = left := by omega
      have pair : v.Paired o.length next := ⟨paired.1, by omega, by omega, paired.2.2.2⟩
      rw [overrun_pair pair] at clean
      rw [at_start, set_front data, isCode] at ih
      obtain ⟨p, q, h⟩ := ih (start + (o.length + 1)) (short_nil v) rfl (by omega) rfl
        (by simpa only [List.length_nil, room] using clean)
      rw [List.length_nil, room] at h
      rw [at_start, set_front data, isCode]
      refine ⟨_, q, h.add (b := ⟨o, .pair⟩) (c := [0, next]) ?_⟩
      intro t _
      simp [split, pair]
  | case5 m dst code left some next rest unpaired ih =>
      have at_start : dst - code = start := by omega
      have room : 0 + 1 + (left - 1) = left := by omega
      have single : ¬ v.Paired o.length next := by
        rintro ⟨pairs, low, high, zero⟩
        exact unpaired ⟨pairs, by omega, by omega, zero⟩
      rw [overrun_zero (by rintro _ _ eq; obtain ⟨rfl, _⟩ := List.cons.inj eq; exact single)]
        at clean
      rw [at_start, set_front data, isCode] at ih
      obtain ⟨p, q, h⟩ := ih (start + (o.length + 1)) (short_nil v) rfl (by omega) rfl
        (by simpa only [List.length_nil, room] using clean)
      rw [List.length_nil, room] at h
      rw [at_start, set_front data, isCode]
      refine ⟨_, q, h.add (b := ⟨o, .zero⟩) (c := [0]) ?_⟩
      rintro t ⟨t', rfl⟩
      have read := h.read
      rw [← List.append_assoc] at read
      cases whole : p ++ t with
      | nil => simp [split]
      | cons c l =>
          rw [whole] at read
          obtain ⟨rfl, _⟩ := List.cons.inj read
          simp [split, single]
  | case6 m dst code left curr src some nonzero full last =>
      have size : o.length + 2 = v.maxlen := by omega
      have exact' : left = 1 := by omega
      subst exact'
      have excess : Overrun v o (o.length + 2 + 0) (curr :: src) :=
        (overrun_full nonzero size).mpr (.inl rfl)
      exact absurd excess clean
  | case7 m dst code left curr src some nonzero full more ih =>
      have at_start : dst - code = start := by omega
      have size : o.length + 2 = v.maxlen := by omega
      have room : 0 + 1 + (left - 2) = left - 1 := by omega
      have total : o.length + 1 + left = o.length + 2 + (left - 1) := by omega
      rw [total, overrun_full nonzero size] at clean
      have data' : (m.set dst curr).read (start + 1) (o ++ [curr]).length = o ++ [curr] := by
        rw [show dst = start + 1 + o.length by omega]
        exact read_grow data curr
      have stored : ((m.set dst curr).set start (.ofNat (code + 1))) =
          m.write start (Block.bytes v ⟨o ++ [curr], .full⟩) := by
        rw [set_front data', Mem.set, Mem.write_write_cover _ _ _ (by omega) (by simp; omega)]
        simp [Block.bytes, Block.code, isCode]
      rw [at_start, stored] at ih
      obtain ⟨p, q, h⟩ := ih (start + (o.length + 2)) (short_nil v) rfl (by omega) rfl
        (by simpa only [List.length_nil, room] using fun h => clean (.inr h))
      rw [List.length_nil, room] at h
      rw [at_start, stored, total]
      have step : ∀ t, t <+: q → split v o ([curr] ++ (p ++ t)) =
          addBlock ⟨o ++ [curr], .full⟩ (split v [] (p ++ t)) :=
        fun t _ => split_full nonzero size (p ++ t)
      have := EncodeExit.Stored.add (b := ⟨o ++ [curr], .full⟩) (by simpa using h) step
      exact ⟨_, q, by simpa using this⟩
  | case8 m dst code left curr src some nonzero room ih =>
      have size : o.length + 2 ≠ v.maxlen := by omega
      have total : (o ++ [curr]).length + 1 + (left - 1) = o.length + 1 + left := by simp; omega
      have data' : (m.set dst curr).read (start + 1) (o ++ [curr]).length = o ++ [curr] := by
        rw [show dst = start + 1 + o.length by omega]
        exact read_grow data curr
      rw [overrun_data nonzero size, ← total] at clean
      obtain ⟨p, q, h⟩ := ih start (short.grow nonzero size) (by simp [isCode]) (by omega) data'
        clean
      rw [total] at h
      have step := split_data (v := v) nonzero size p
      refine ⟨curr :: p, q, by rw [h.read]; rfl, h.rest, h.finished, by rw [step]; exact h.code,
        by rw [step]; exact h.size, ?_, ?_⟩
      rotate_left
      · intro t part
        rw [List.cons_append, split_data nonzero size, split_data nonzero size, h.apart t part]
      have long := le_splitSize (v := v) (o ++ [curr]) p
      rw [step, h.mem, Mem.set, Mem.write_write_cover _ _ _ (by omega)]
      simp only [splitSize, List.length_append, List.length_singleton] at long ⊢
      omega

/-- The other exit of the block loop: a byte is given back, but the target counts
    as full. -/
structure EncodeExit.Undone (v : Variant) (r : EncodeExit) (room : Nat) (o src p q : List Byte) :
    Prop where
  read : src = p ++ q
  rest : r.len = q.length
  pending : q ≠ []
  left : r.left = 0
  code : r.code + 1 = v.maxlen
  full : (split v o p).2.length + 2 = v.maxlen
  size : splitSize v (split v o p) + 1 = room

theorem EncodeExit.Undone.add {r : EncodeExit} {room : Nat} {o src p q : List Byte} {b : Block}
    {c : List Byte} (h : r.Undone v room [] src p q)
    (step : split v o (c ++ p) = addBlock b (split v [] p)) :
    r.Undone v (b.data.length + 1 + room) o (c ++ src) (c ++ p) q where
  read := by rw [h.read, List.append_assoc]
  rest := h.rest
  pending := h.pending
  left := h.left
  code := h.code
  full := by rw [step]; exact h.full
  size := by
    rw [step, splitSize_add]
    have := h.size
    omega

theorem encodeLoop_undone (m : Mem Byte) (dst code left : Nat) (src : List Byte)
    {o : List Byte} (isCode : code = o.length + 1)
    (excess : Overrun v o (o.length + 1 + left) src) :
    ∃ p q, (encodeLoop v m dst code left src).Undone v (o.length + 1 + left) o src p q := by
  fun_induction encodeLoop v m dst code left src generalizing o with
  | case1 m dst code left => exact absurd excess (not_overrun_nil _ _)
  | case2 m dst code curr src => exact absurd excess (not_overrun_full _ _)
  | case3 m dst code left some ih =>
      rw [overrun_zero (by simp)] at excess
      exact absurd excess (not_overrun_nil _ _)
  | case4 m dst code left some next rest paired ih =>
      have room : 0 + 1 + (left - 1) = left := by omega
      have pair : v.Paired o.length next := ⟨paired.1, by omega, by omega, paired.2.2.2⟩
      rw [overrun_pair pair] at excess
      obtain ⟨p, q, h⟩ := ih (o := []) rfl (by simpa only [List.length_nil, room] using excess)
      rw [List.length_nil, room] at h
      exact ⟨_, q, h.add (b := ⟨o, .pair⟩) (c := [0, next]) (by simp [split, pair])⟩
  | case5 m dst code left some next rest unpaired ih =>
      have room : 0 + 1 + (left - 1) = left := by omega
      have single : ¬ v.Paired o.length next := by
        rintro ⟨pairs, low, high, zero⟩
        exact unpaired ⟨pairs, by omega, by omega, zero⟩
      rw [overrun_zero (by rintro _ _ eq; obtain ⟨rfl, _⟩ := List.cons.inj eq; exact single)]
        at excess
      obtain ⟨p, q, h⟩ := ih (o := []) rfl (by simpa only [List.length_nil, room] using excess)
      rw [List.length_nil, room] at h
      refine ⟨_, q, h.add (b := ⟨o, .zero⟩) (c := [0]) ?_⟩
      cases p with
      | nil => simp [split]
      | cons c p =>
          obtain ⟨rfl, _⟩ := List.cons.inj h.read
          simp [split, single]
  | case6 m dst code left curr src some nonzero full last =>
      refine ⟨[], curr :: src, rfl, rfl, by simp, last, full, ?_, ?_⟩
      · simp only [split]
        omega
      · simp [split, splitSize]
        omega
  | case7 m dst code left curr src some nonzero full more ih =>
      have size : o.length + 2 = v.maxlen := by omega
      have room : 0 + 1 + (left - 2) = left - 1 := by omega
      have total : o.length + 1 + left = o.length + 2 + (left - 1) := by omega
      rw [total, overrun_full nonzero size] at excess
      have excess := excess.resolve_left more
      obtain ⟨p, q, h⟩ := ih (o := []) rfl (by simpa only [List.length_nil, room] using excess)
      rw [List.length_nil, room] at h
      rw [total]
      have step : split v o ([curr] ++ p) = addBlock ⟨o ++ [curr], .full⟩ (split v [] p) :=
        split_full nonzero size p
      have := h.add step
      exact ⟨_, q, by simpa using this⟩
  | case8 m dst code left curr src some nonzero room ih =>
      have size : o.length + 2 ≠ v.maxlen := by omega
      have total : (o ++ [curr]).length + 1 + (left - 1) = o.length + 1 + left := by simp; omega
      rw [overrun_data nonzero size, ← total] at excess
      obtain ⟨p, q, h⟩ := ih (by simp [isCode]) excess
      rw [total] at h
      have step := split_data (v := v) nonzero size p
      exact ⟨curr :: p, q, by rw [h.read]; rfl, h.rest, h.pending, h.left, h.code,
        by rw [step]; exact h.full, by rw [step]; exact h.size⟩

/-- The bytes of a message in progress behind its finished blocks. -/
def progress : Option (List Byte) → List Byte
  | none => []
  | some o => opened o

/-- The target range from `base` on holds finished bytes and the open block. -/
structure Holds (v : Variant) (info : EncodeState) (m : Mem Byte) (base : Nat) (fin : List Byte)
    (o : Option (List Byte)) : Prop where
  done : info.done = fin.length
  scratch : info.scratch = (progress o).length
  mem : m.read base (info.done + info.scratch) = fin ++ progress o
  short : Short v (o.getD [])

namespace Holds

variable {info : EncodeState} {m : Mem Byte} {base : Nat} {fin : List Byte}
  {o : Option (List Byte)}

theorem init (v : Variant) (m : Mem Byte) (base : Nat) : Holds v .init m base [] none :=
  ⟨rfl, rfl, rfl, short_nil v⟩

theorem scratch_lt (h : Holds v info m base fin o) : info.scratch < 256 := by
  have := h.short.size
  have := v.maxlen_le
  cases o with
  | none => simp [h.scratch, progress]
  | some o =>
      simp only [h.scratch, progress, length_opened, Option.getD_some] at *
      omega

/-- The code as the encoder continues with it. -/
theorem code (h : Holds v info m base fin o) :
    (if info.scratch % 256 = 0 then 1 else info.scratch % 256) = (o.getD []).length + 1 := by
  rw [Nat.mod_eq_of_lt h.scratch_lt, h.scratch]
  cases o with
  | none => rfl
  | some o => simp [progress]

/-- The data of the open block as it is found in the target. -/
theorem data (h : Holds v info m base fin o) :
    m.read (base + info.done + 1) (o.getD []).length = o.getD [] := by
  cases o with
  | none => rfl
  | some o =>
      have whole := h.mem
      rw [Mem.read_append, h.done] at whole
      have part := (List.append_inj whole (by simp)).2
      rw [h.scratch, progress, length_opened, Mem.read_succ] at part
      rw [h.done]
      exact (List.cons.inj part).2

/-- The finished bytes. -/
theorem front (h : Holds v info m base fin o) : m.read base fin.length = fin := by
  have whole := h.mem
  rw [Mem.read_append, h.done] at whole
  exact (List.append_inj whole (by simp)).1

/-- The same bytes at another place. -/
theorem transfer (h : Holds v info m base fin o) {m' : Mem Byte} {base' : Nat}
    (same : m'.read base' (info.done + info.scratch) = m.read base (info.done + info.scratch)) :
    Holds v info m' base' fin o :=
  ⟨h.done, h.scratch, by rw [same]; exact h.mem, h.short⟩

/-- A terminated message is in place, with no open block behind it. -/
theorem finish (h : Holds v info m base fin o) (out : List Byte) :
    Holds v ⟨0, info.done + out.length, 0⟩ (m.write (base + info.done) out) base (fin ++ out)
      none where
  done := by simp [h.done]
  scratch := rfl
  mem := by
    simp only [Nat.add_zero, progress, List.append_nil]
    rw [Mem.read_append, Mem.read_write_self,
      Mem.read_write_disjoint _ _ (.inl (Nat.le_refl _)), h.done, h.front]
  short := short_nil v

end Holds

/-- How far a data call gets: it consumes `p` of `src` and stops at the end of the
    source or of the target. -/
structure Taken (v : Variant) (info info' : EncodeState) (len : Nat) (o src p q : List Byte) :
    Prop where
  read : src = p ++ q
  some : p ≠ []
  stop : q = [] ∨ info'.done + info'.scratch = len
  fits : info'.done + info'.scratch ≤ len
  done : info'.done = info.done + (encoded v (split v o p).1).length
  scratch : info'.scratch = (split v o p).2.length + 1
  apart : Apart v o p q

/-- The bytes that a data call puts where the open block was. -/
def stored (v : Variant) (o p : List Byte) : List Byte :=
  encoded v (split v o p).1 ++ opened (split v o p).2

theorem length_stored (o p : List Byte) : (stored v o p).length =
    (encoded v (split v o p).1).length + ((split v o p).2.length + 1) := by
  simp [stored]

/-- The data call of a consistent encoder is one run of the block loop. -/
theorem encode_bytes {info : EncodeState} {m : Mem Byte} {fin : List Byte}
    {o : Option (List Byte)} {t : Iovec} (h : Holds v info m t.base fin o)
    (target : t.base ≠ 0) (room : info.done + (o.getD []).length + 1 < t.len)
    {src : List Byte} (some : src ≠ []) {r : EncodeExit}
    (run : encodeLoop v m (t.base + info.done + ((o.getD []).length + 1))
      ((o.getD []).length + 1) (t.len - info.done - ((o.getD []).length + 1)) src = r) :
    encode v info m (Option.some t) (Option.some (.bytes src)) =
      (⟨info.ctx + (t.len - r.left - info.done - info.scratch),
        t.len - r.left - r.code, r.code⟩, r.mem, .ok (src.length - r.len)) := by
  have code := h.code
  have size : info.scratch % 256 ≤ (o.getD []).length + 1 := by
    rw [← code]
    split <;> omega
  have filled : src.length ≠ 0 := by simpa using some
  simp only [encode, target, if_false, code]
  rw [if_neg (by omega), if_neg filled, if_neg (by omega), run]

/-- A data call with room for at least one byte stores the split of the bytes it
    consumes, unless it overruns. -/
theorem encode_data {info : EncodeState} {m : Mem Byte} {fin : List Byte}
    {o : Option (List Byte)} {t : Iovec} (h : Holds v info m t.base fin o)
    (target : t.base ≠ 0) (room : info.done + (o.getD []).length + 1 < t.len)
    {src : List Byte} (some : src ≠ [])
    (clean : ¬ Overrun v (o.getD []) (t.len - info.done) src) :
    ∃ p q info', Taken v info info' t.len (o.getD []) src p q ∧
      encode v info m (Option.some t) (Option.some (.bytes src)) =
        (info', m.write (t.base + info.done) (stored v (o.getD []) p), .ok p.length) := by
  have total : (o.getD []).length + 1 + (t.len - info.done - ((o.getD []).length + 1)) =
      t.len - info.done := by omega
  have loop := encodeLoop_stored (v := v) m (t.base + info.done)
    (t.base + info.done + ((o.getD []).length + 1)) ((o.getD []).length + 1)
    (t.len - info.done - ((o.getD []).length + 1)) src h.short rfl rfl h.data
    (by rwa [total])
  have call := encode_bytes h target room some rfl
  revert loop call
  generalize encodeLoop v m _ _ _ src = r
  rintro ⟨p, q, loop⟩ call
  rw [total] at loop
  have size := loop.size
  have code := loop.code
  have finished := loop.finished
  rw [splitSize, length_opened] at size
  refine ⟨p, q, ⟨info.ctx + (t.len - r.left - info.done - info.scratch),
    t.len - r.left - r.code, r.code⟩, ⟨loop.read, ?_, ?_, ?_, ?_, loop.code, loop.apart⟩, ?_⟩
  rotate_left 4
  · rw [call, loop.rest, loop.mem, loop.read]
    simp [stored]
  · rintro rfl
    rcases finished with rfl | full
    · exact some (by simpa using loop.read)
    · simp only [split, encoded_nil, List.length_nil] at size
      omega
  · rcases finished with empty | full
    · exact .inl empty
    · exact .inr (by simp only; omega)
  · simp only
    omega
  · simp only
    omega

/-- A data call without room for another byte changes nothing. -/
theorem encode_data_missing {info : EncodeState} {m : Mem Byte} {fin : List Byte}
    {o : Option (List Byte)} {t : Iovec} (h : Holds v info m t.base fin o)
    (target : t.base ≠ 0) (fits : info.done + info.scratch ≤ t.len)
    (room : t.len ≤ info.done + (o.getD []).length + 1) {src : List Byte} (some : src ≠ []) :
    encode v info m (Option.some t) (Option.some (.bytes src)) =
      (info, m, .error .missingBuffer) := by
  have code := h.code
  have small := Nat.mod_eq_of_lt h.scratch_lt
  have filled : src.length ≠ 0 := by simpa using some
  simp only [encode, target, if_false, code]
  rw [if_neg (by omega), if_neg filled, if_pos (by omega)]

/-- A data call that overruns counts one byte more than it has stored. -/
theorem encode_data_overrun {info : EncodeState} {m : Mem Byte} {fin : List Byte}
    {o : Option (List Byte)} {t : Iovec} (h : Holds v info m t.base fin o)
    (target : t.base ≠ 0) {src : List Byte}
    (excess : Overrun v (o.getD []) (t.len - info.done) src) :
    ∃ p q info' m', src = p ++ q ∧ q ≠ [] ∧
      encode v info m (some t) (some (.bytes src)) = (info', m', .ok p.length) ∧
      info'.done + info'.scratch = t.len ∧
      info.done + splitSize v (split v (o.getD []) p) + 1 = t.len := by
  obtain ⟨p', x, q', read, _, _, size'⟩ := id excess
  have long := le_splitSize (v := v) (o.getD []) p'
  have some : src ≠ [] := by simp [read]
  have total : (o.getD []).length + 1 + (t.len - info.done - ((o.getD []).length + 1)) =
      t.len - info.done := by omega
  have loop := encodeLoop_undone (v := v) m (t.base + info.done + ((o.getD []).length + 1))
    ((o.getD []).length + 1) (t.len - info.done - ((o.getD []).length + 1)) src rfl
    (by rwa [total])
  have call := encode_bytes h target (by omega) some rfl
  revert loop call
  generalize encodeLoop v m _ _ _ src = r
  rintro ⟨p, q, loop⟩ call
  have size := loop.size
  have code := loop.code
  have full := loop.full
  have left := loop.left
  have consumed : src.length - r.len = p.length := by rw [loop.rest, loop.read]; simp
  rw [total] at size
  refine ⟨p, q, _, _, loop.read, loop.pending, by rw [call, consumed], ?_, by omega⟩
  simp only [splitSize, length_opened] at size ⊢
  omega

theorem getLast_read {m : Mem Byte} {a : Nat} {o : List Byte} (data : m.read a o.length = o)
    (some : o ≠ []) : o.getLast? = Option.some (m (a + o.length - 1)) := by
  have size : 0 < o.length := List.length_pos_iff.mpr some
  rw [← data, List.getLast?_eq_getElem?, Mem.length_read, Mem.getElem?_read _ _ _ _ (by omega)]
  congr 2
  omega

/-- The terminated form of the open block, in place of it. -/
theorem write_inline {m : Mem Byte} {a : Nat} {o : List Byte} (data : m.read (a + 1) o.length = o)
    (some : o ≠ []) (e : Byte) :
    (m.set a e).set (a + o.length) 0 = m.write a (e :: o.dropLast ++ [0]) := by
  have size : 0 < o.length := List.length_pos_iff.mpr some
  have inner : m.read (a + 1) o.dropLast.length = o.dropLast := by
    rw [List.length_dropLast, ← Nat.min_eq_left (Nat.sub_le o.length 1), ← Mem.take_read, data,
      List.dropLast_eq_take]
  rw [set_front inner, Mem.set, Mem.write_append]
  congr 1
  simp
  omega

theorem write_opened {m : Mem Byte} {a : Nat} {o : List Byte}
    (data : m.read (a + 1) o.length = o) :
    (m.set a (.ofNat (o.length + 1))).set (a + (o.length + 1)) 0 =
      m.write a (opened o ++ [0]) := by
  rw [set_front data, Mem.set, Mem.write_append, length_opened]
  rfl

section Finish

variable {info : EncodeState} {m : Mem Byte} {fin : List Byte} {t : Iovec} (c : Codec)

theorem encoder_data (src : List Byte) :
    c.encoder info m (some t) (some (.bytes src)) =
      encode c.variant info m (some t) (some (.bytes src)) := by
  unfold Codec.encoder
  split <;> rfl

theorem length_closed (v : Variant) (tail : Bool) (o : List Byte) :
    (closed v tail o).length = if tail = true ∧ Inline v o then o.length else o.length + 1 := by
  unfold closed
  split
  · rename_i inl
    obtain ⟨e, last, _⟩ := inl.2
    have some : o ≠ [] := by
      rintro rfl
      simp at last
    have := List.length_pos_iff.mpr some
    simp
    omega
  · simp

/-- Ending a message without data counts no bytes before it. -/
theorem finish_empty (h : Holds c.variant info m t.base fin none) (target : t.base ≠ 0)
    (fits : info.done ≤ t.len) :
    c.encoder info m (some t) none =
      if t.len < info.done + 2 then
        (info, m, .error .missingBuffer)
      else
        (⟨0, 2, 0⟩, m.write (t.base + info.done) [1, 0], .ok 0) := by
  have scratch : info.scratch = 0 := h.scratch
  have regular : encode c.variant info m (some t) none =
      if t.len < info.done + 2 then
        (info, m, .error .missingBuffer)
      else
        (⟨0, 2, 0⟩, m.write (t.base + info.done) [1, 0], .ok 0) := by
    simp only [encode, target, if_false, scratch, Nat.zero_mod]
    rw [if_neg (by omega)]
    by_cases room : t.len < info.done + 2
    · rw [if_pos room]
      split
      · rfl
      · rw [if_pos trivial, if_pos (by omega)]
    · rw [if_neg room, if_neg (by omega), if_pos trivial, if_neg (by omega), Mem.write_cons]
      rfl
  unfold Codec.encoder
  split
  · simp only [encodeR, scratch, if_true]
    exact regular
  · exact regular

/-- Ending a message puts the closed form of its last block and the delimiter in
    the place of the open block. -/
theorem finish_open {o : List Byte} (h : Holds c.variant info m t.base fin (some o))
    (target : t.base ≠ 0) (fits : info.done + info.scratch ≤ t.len) :
    c.encoder info m (some t) none =
      if c.tail = false ∧ t.len ≤ info.done + info.scratch then
        (info, m, .error .missingBuffer)
      else
        (⟨0, info.done + (closed c.variant c.tail o ++ [0]).length, 0⟩,
          m.write (t.base + info.done) (closed c.variant c.tail o ++ [0]), .ok 0) := by
  have scratch : info.scratch = o.length + 1 := by simp [h.scratch, progress]
  have small : info.scratch % 256 = o.length + 1 := by rw [Nat.mod_eq_of_lt h.scratch_lt, scratch]
  have data : m.read (t.base + info.done + 1) o.length = o := h.data
  have size : o.length + 1 < c.variant.maxlen := h.short.size
  have plain : ((m.set (t.base + info.done) (.ofNat (o.length + 1))).set
      (t.base + info.done + (o.length + 1)) 0) =
      m.write (t.base + info.done) (opened o ++ [0]) := write_opened data
  cases e : c.tail with
  | false =>
      have closedEq : closed c.variant false o = opened o := by simp [closed]
      simp only [Codec.encoder, e, encode, target, if_false, small, closedEq, true_and,
        Bool.false_eq_true]
      rw [if_neg (by omega)]
      by_cases room : t.len ≤ info.done + info.scratch
      · rw [if_pos (by omega), if_pos room]
      · rw [if_neg (by omega), if_neg room, if_neg (by omega), plain]
        simp
  | true =>
      simp only [Codec.encoder, e, if_true, encodeR, scratch, Bool.true_eq_false, false_and,
        if_false]
      rw [if_neg (by omega), if_neg (by omega)]
      by_cases empty : o = []
      · subst empty
        have closedEq : closed c.variant true [] = opened [] := by simp [closed, Inline]
        rw [if_neg (by simp), if_neg (by omega), closedEq]
        rw [List.length_nil] at plain ⊢
        rw [plain]
        rfl
      · have last := getLast_read data empty
        have addr : t.base + info.done + (o.length + 1) - 1 =
            t.base + info.done + 1 + o.length - 1 := by omega
        have some : 0 < o.length := List.length_pos_iff.mpr empty
        rw [addr]
        by_cases inl : Inline c.variant o
        · obtain ⟨b, eq, low, high⟩ := id inl
          obtain rfl := Option.some.inj (last.symm.trans eq)
          have closedEq : closed c.variant true o =
              m (t.base + info.done + 1 + o.length - 1) :: o.dropLast := by
            simp [closed, inl, last]
          rw [if_pos ⟨by omega, low, by omega, high⟩, closedEq, Nat.add_sub_cancel,
            write_inline data empty]
          simp
          omega
        · have closedEq : closed c.variant true o = opened o := by simp [closed, inl]
          rw [if_neg, if_neg (by omega), closedEq, plain]
          · simp
          · rintro ⟨_, low, _, high⟩
            exact inl ⟨_, last, low, high⟩

end Finish

theorem Holds.write {info info' : EncodeState} {m : Mem Byte} {fin : List Byte}
    {o : Option (List Byte)} {base len : Nat} {src p q : List Byte}
    (h : Holds v info m base fin o) (t : Taken v info info' len (o.getD []) src p q) :
    Holds v info' (m.write (base + info.done) (stored v (o.getD []) p)) base
      (fin ++ encoded v (split v (o.getD []) p).1) (some (split v (o.getD []) p).2) where
  done := by rw [t.done, h.done, List.length_append]
  scratch := by rw [t.scratch, progress, length_opened]
  mem := by
    rw [t.done, t.scratch, Nat.add_assoc, Mem.read_append,
      Mem.read_write_disjoint _ _ (.inl (Nat.le_refl _)), h.done, h.front, ← length_stored,
      Mem.read_write_self, stored, List.append_assoc]
    rfl
  short := (split_ok v _ p h.short).2

end Mpt.Cobs
