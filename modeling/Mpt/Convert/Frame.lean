import Mpt.Convert.EncodeSpec

/-! # The form of a finished message

Whatever the pieces a message is given in, its blocks are well formed and stand for
its bytes.  From that alone follow the two properties of a frame: the delimiter is
its only zero, and its size is bounded by the size of the message.
-/

namespace Mpt.Cobs.Frames

variable {v : Variant}

/-- The finished bytes of a message of `n` bytes. -/
structure Delimited (v : Variant) (n : Nat) (frame : List Byte) : Prop where
  zeros : frame.count 0 = 1
  last : frame.getLast? = some 0
  size : frame.length ≤ n + n / (v.maxlen - 1) + 2

theorem ofNat_ne_zero {n : Nat} (pos : 0 < n) (lt : n < 256) : UInt8.ofNat n ≠ 0 := by
  intro zero
  have := congrArg UInt8.toNat zero
  simp [UInt8.toNat_ofNat, Nat.mod_eq_of_lt lt] at this
  omega

/-- Blocks of maximal size take one byte more than they stand for, other blocks do
    not. -/
theorem encoded_overhead {bs : List Block} (ok : ∀ b ∈ bs, b.Ok v) :
    ∃ k, (encoded v bs).length ≤ (decoded bs).length + k ∧
      k * (v.maxlen - 1) ≤ (decoded bs).length := by
  induction bs with
  | nil => exact ⟨0, by simp⟩
  | cons b bs ih =>
      obtain ⟨k, le, full⟩ := ih fun b inside => ok b (List.mem_cons_of_mem _ inside)
      have size := (ok b List.mem_cons_self).size
      have bytes := b.length_bytes v
      simp only [encoded_cons, decoded_cons, List.length_append]
      cases e : b.ending with
      | zero =>
          simp only [Block.payload, e, List.length_append, List.length_singleton]
          exact ⟨k, by omega, by omega⟩
      | full =>
          simp only [e] at size
          simp only [Block.payload, e]
          refine ⟨k + 1, by omega, ?_⟩
          rw [Nat.add_mul, Nat.one_mul]
          omega
      | pair =>
          simp only [Block.payload, e, List.length_append, List.length_cons, List.length_nil]
          exact ⟨k, by omega, by omega⟩

theorem encoded_le {bs : List Block} (ok : ∀ b ∈ bs, b.Ok v) {o : List Byte} {n : Nat}
    (whole : (decoded bs).length + o.length ≤ n) :
    (encoded v bs).length + o.length ≤ n + n / (v.maxlen - 1) := by
  obtain ⟨k, le, full⟩ := encoded_overhead ok
  have least := v.short_lt
  have count : k ≤ n / (v.maxlen - 1) := by
    rw [Nat.le_div_iff_mul_le (by omega)]
    omega
  omega

theorem zero_notMem_encoded {bs : List Block} (ok : ∀ b ∈ bs, b.Ok v) :
    (0 : Byte) ∉ encoded v bs := by
  induction bs with
  | nil => simp
  | cons b bs ih =>
      have here := ok b List.mem_cons_self
      have rest := ih fun b inside => ok b (List.mem_cons_of_mem _ inside)
      have code := ofNat_ne_zero here.code_pos here.code_lt
      simp only [encoded_cons, Block.bytes, List.cons_append, List.mem_cons, List.mem_append,
        not_or]
      exact ⟨code.symm, here.nonzero, rest⟩

theorem zero_notMem_closed {o : List Byte} (short : Short v o) (tail : Bool) :
    (0 : Byte) ∉ closed v tail o := by
  have size := short.size
  have low := v.maxlen_le
  unfold closed
  by_cases inl : tail = true ∧ Inline v o
  · rw [if_pos inl]
    obtain ⟨e, last, large, _⟩ := inl.2
    simp only [last, Option.getD_some, List.mem_cons, not_or]
    refine ⟨?_, fun inside => short.nonzero (List.dropLast_subset _ inside)⟩
    rintro rfl
    simp at large
  · rw [if_neg inl]
    simp only [opened, List.mem_cons, not_or]
    exact ⟨(ofNat_ne_zero (Nat.succ_pos _) (by omega)).symm, short.nonzero⟩

theorem size_whole (bs : List Block) (o : List Byte) :
    (decoded bs).length + o.length = (decoded bs ++ o).length :=
  List.length_append.symm

/-- The finished bytes of well-formed blocks. -/
theorem delimited {bs : List Block} {o : List Byte} (ok : ∀ b ∈ bs, b.Ok v) (short : Short v o)
    (tail : Bool) : Delimited v (decoded bs ++ o).length
      (encoded v bs ++ (closed v tail o ++ [0])) where
  zeros := by
    rw [List.count_append, List.count_append, List.count_eq_zero.mpr (zero_notMem_encoded ok),
      List.count_eq_zero.mpr (zero_notMem_closed short tail)]
    rfl
  last := by simp
  size := by
    have blocks := encoded_le ok (Nat.le_of_eq (size_whole bs o))
    have rest : (closed v tail o).length ≤ o.length + 1 := by
      rw [length_closed]
      split <;> omega
    simp only [List.length_append, List.length_singleton] at blocks ⊢
    omega

/-- Blocks that stand for the bytes taken, in place behind the finished bytes `fin`. -/
structure Blocks (v : Variant) (info : EncodeState) (m : Mem Byte) (base : Nat)
    (fin taken : List Byte) (bs : List Block) (o : List Byte) : Prop where
  ok : ∀ b ∈ bs, b.Ok v
  whole : decoded bs ++ o = taken
  holds : Holds v info m base (fin ++ encoded v bs) (if taken = [] then none else some o)

section Blocks

variable {info : EncodeState} {m : Mem Byte} {base : Nat} {fin taken o : List Byte}
  {bs : List Block}

theorem payload_ne_nil {b : Block} (ok : b.Ok v) : b.payload ≠ [] := by
  have size := ok.size
  have least := v.short_lt
  unfold Block.payload
  cases e : b.ending with
  | zero => simp
  | full =>
      simp only [e] at size
      intro none
      simp only [none, List.length_nil] at size
      omega
  | pair => simp

theorem Blocks.empty (h : Blocks v info m base fin [] bs o) : bs = [] ∧ o = [] := by
  obtain ⟨blocks, rest⟩ := List.append_eq_nil_iff.mp h.whole
  refine ⟨?_, rest⟩
  cases bs with
  | nil => rfl
  | cons b bs =>
      rw [decoded_cons] at blocks
      exact absurd (List.append_eq_nil_iff.mp blocks).1 (payload_ne_nil (h.ok b List.mem_cons_self))

theorem Blocks.data (h : Blocks v info m base fin taken bs o) :
    (if taken = [] then none else some o).getD [] = o := by
  split
  · rename_i nothing
    subst nothing
    rw [h.empty.2]
    rfl
  · rfl

theorem Blocks.short (h : Blocks v info m base fin taken bs o) : Short v o := by
  have short := h.holds.short
  rwa [h.data] at short

theorem Blocks.size (h : Blocks v info m base fin taken bs o) {n : Nat} (le : taken.length ≤ n) :
    info.done + o.length ≤ fin.length + (n + n / (v.maxlen - 1)) := by
  have done := h.holds.done
  have whole := congrArg List.length h.whole
  rw [List.length_append] at done whole
  have blocks := encoded_le h.ok (o := o) (n := n) (by omega)
  omega

/-- A piece that fits is taken as a whole. -/
theorem Blocks.add {c : Codec} {t : Iovec} (target : t.base ≠ 0)
    (h : Blocks c.variant info m t.base fin taken bs o) {src : List Byte} (some : src ≠ []) {n : Nat}
    (le : (taken ++ src).length ≤ n)
    (room : fin.length + (n + n / (c.variant.maxlen - 1) + 2) ≤ t.len) :
    ∃ info' m', c.encoder info m (Option.some t) (Option.some (.bytes src)) =
        (info', m', .ok src.length) ∧
      Blocks c.variant info' m' t.base fin (taken ++ src) (bs ++ (split c.variant o src).1)
        (split c.variant o src).2 := by
  have data := h.data
  have size := h.size (n := n) (by rw [List.length_append] at le; omega)
  -- what is taken of the piece goes on with well-formed blocks
  have grow : ∀ p, (∀ b ∈ bs ++ (split c.variant o p).1, b.Ok c.variant) ∧
      decoded (bs ++ (split c.variant o p).1) ++ (split c.variant o p).2 = taken ++ p := by
    intro p
    refine ⟨?_, by rw [decoded_append, List.append_assoc, decoded_split, ← List.append_assoc, h.whole]⟩
    intro b inside
    rcases List.mem_append.mp inside with before | new
    · exact h.ok b before
    · exact (split_ok c.variant o p h.short).1 b new
  have bound : ∀ p k, taken.length + p.length ≤ k → info.done +
      (encoded c.variant (split c.variant o p).1).length + (split c.variant o p).2.length ≤
        fin.length + (k + k / (c.variant.maxlen - 1)) := by
    intro p k le
    have done := h.holds.done
    have whole := congrArg List.length (grow p).2
    have blocks := encoded_le (grow p).1 (o := (split c.variant o p).2) (n := k)
      (by simp only [List.length_append] at whole; omega)
    simp only [encoded_append, List.length_append] at done blocks
    omega
  have clean : ¬ Overrun c.variant o (t.len - info.done) src := by
    rintro ⟨p, x, q, rfl, _, _, full⟩
    simp only [List.length_append, List.length_cons] at le
    have used := bound p (n - 1) (by omega)
    have div : (n - 1) / (c.variant.maxlen - 1) ≤ n / (c.variant.maxlen - 1) :=
      Nat.div_le_div_right (Nat.sub_le _ _)
    simp only [splitSize, length_opened] at full
    omega
  obtain ⟨p, q, info', part, call⟩ := encode_data h.holds target (by rw [data]; omega) some
    (by rw [data]; exact clean)
  rw [data] at part
  have whole : q = [] := by
    rcases part.stop with done | full
    · exact done
    · have read := congrArg List.length part.read
      simp only [List.length_append] at read le
      have used := bound p n (by omega)
      have counted := part.done
      have scratch := part.scratch
      omega
  obtain rfl : src = p := by simpa [whole] using part.read
  refine ⟨info', _, (encoder_data c src).trans call, (grow src).1, (grow src).2, ?_⟩
  rw [← data] at part
  have next := h.holds.write part
  rw [data] at next ⊢
  simpa [some] using next

end Blocks

/-- The pieces of a message in their order, and how many bytes were taken. -/
def pieces (c : Codec) (t : Iovec) (info : EncodeState) (m : Mem Byte) :
    List (List Byte) → EncodeState × Mem Byte × Nat
  | [] => (info, m, 0)
  | src :: rest =>
      let (info, m, ret) := c.encoder info m (some t) (some (.bytes src))
      let n := match ret with
        | .ok n => n
        | .error _ => 0
      let (info, m, k) := pieces c t info m rest
      (info, m, n + k)

/-- A whole message: its pieces and its end. -/
def message (c : Codec) (t : Iovec) (info : EncodeState) (m : Mem Byte) (srcs : List (List Byte)) :
    EncodeState × Mem Byte × Nat :=
  let (info, m, n) := pieces c t info m srcs
  let (info, m, _) := c.encoder info m (some t) none
  (info, m, n)

theorem encode_nothing (v : Variant) (info : EncodeState) (m : Mem Byte) (t : Iovec) :
    ∃ e, encode v info m (some t) (some (.bytes [])) = (info, m, .error e) := by
  simp only [encode, List.length_nil, if_true]
  split
  · split <;> exact ⟨_, rfl⟩
  · split <;> exact ⟨_, rfl⟩

theorem pieces_blocks {c : Codec} {t : Iovec} (target : t.base ≠ 0) {info : EncodeState}
    {m : Mem Byte} {fin taken o : List Byte} {bs : List Block} (srcs : List (List Byte)) {n : Nat}
    (h : Blocks c.variant info m t.base fin taken bs o) (le : (taken ++ srcs.flatten).length ≤ n)
    (room : fin.length + (n + n / (c.variant.maxlen - 1) + 2) ≤ t.len) :
    ∃ info' m' bs' o', pieces c t info m srcs = (info', m', srcs.flatten.length) ∧
      Blocks c.variant info' m' t.base fin (taken ++ srcs.flatten) bs' o' := by
  induction srcs generalizing info m taken o bs with
  | nil => exact ⟨info, m, bs, o, rfl, by simpa using h⟩
  | cons src rest ih =>
      rw [List.flatten_cons, ← List.append_assoc] at le
      by_cases nothing : src = []
      · subst nothing
        rw [List.append_nil] at le
        obtain ⟨e, call⟩ := encode_nothing c.variant info m t
        obtain ⟨info', m', bs', o', run, next⟩ := ih h le
        refine ⟨info', m', bs', o', ?_, by simpa using next⟩
        simp only [pieces, encoder_data, call, run]
        simp
      · obtain ⟨info₁, m₁, call, grown⟩ := h.add target nothing
          (by rw [List.length_append] at le; omega) room
        obtain ⟨info', m', bs', o', run, next⟩ := ih grown le
        refine ⟨info', m', bs', o', ?_, by simpa using next⟩
        simp only [pieces, call, run, List.flatten_cons, List.length_append]

theorem blocks_nil {info : EncodeState} {m : Mem Byte} {base : Nat} {fin : List Byte}
    (h : Holds v info m base fin none) : Blocks v info m base fin [] [] [] :=
  ⟨by simp, rfl, by simpa using h⟩

/-- A message given in pieces to an encoder with enough space is taken as a whole, and
    its blocks are in place behind the finished bytes.  They are counted, except that the
    count starts over for a message without data. -/
theorem message_placed (c : Codec) (t : Iovec) (info : EncodeState) (m : Mem Byte)
    (fin : List Byte) (srcs : List (List Byte)) (target : t.base ≠ 0)
    (start : Holds c.variant info m t.base fin none)
    (room : fin.length + (srcs.flatten.length +
      srcs.flatten.length / (c.variant.maxlen - 1) + 2) ≤ t.len) :
    ∃ info' m' bs o, message c t info m srcs = (info', m', srcs.flatten.length) ∧
      (∀ b ∈ bs, b.Ok c.variant) ∧ Short c.variant o ∧ decoded bs ++ o = srcs.flatten ∧
      m'.read t.base (fin ++ (encoded c.variant bs ++ (closed c.variant c.tail o ++ [0]))).length =
        fin ++ (encoded c.variant bs ++ (closed c.variant c.tail o ++ [0])) ∧
      (srcs.flatten ≠ [] ∨ fin = [] → info' =
        ⟨0, (fin ++ (encoded c.variant bs ++ (closed c.variant c.tail o ++ [0]))).length, 0⟩) ∧
      (srcs.flatten = [] → info' = ⟨0, 2, 0⟩) := by
  obtain ⟨info₁, m₁, bs, o, run, h⟩ := pieces_blocks target srcs (blocks_nil start)
    (Nat.le_refl _) room
  rw [List.nil_append] at h
  have size := h.size (Nat.le_refl _)
  have scratch := h.holds.scratch
  simp only [message, run]
  by_cases nothing : srcs.flatten = []
  · rw [nothing] at h
    obtain ⟨rfl, rfl⟩ := h.empty
    have holds := h.holds
    simp only [if_true, encoded_nil, List.append_nil] at holds
    have frame : encoded c.variant [] ++ (closed c.variant c.tail [] ++ [0]) = [1, 0] := by
      simp [closed, Inline, opened]
    rw [finish_empty c holds target (by omega), if_neg (by omega)]
    refine ⟨_, _, [], [], by rw [nothing], by simp, short_nil _, by rw [nothing]; rfl, ?_, ?_,
      fun _ => rfl⟩
    · rw [frame, List.length_append, Mem.read_append, Mem.read_write_disjoint _ _ (.inl (by
        have := holds.done
        omega)), holds.front, ← holds.done, Mem.read_write_self]
    · rw [frame]
      rintro (some | rfl)
      · exact absurd nothing some
      · rfl
  · have holds := h.holds
    rw [if_neg nothing] at holds scratch
    rw [progress, length_opened] at scratch
    rw [finish_open c holds target (by omega), if_neg (by omega)]
    have next := holds.finish (closed c.variant c.tail o ++ [0])
    have placed := next.front
    rw [List.append_assoc] at placed
    refine ⟨_, _, bs, o, rfl, h.ok, h.short, h.whole, placed, ?_, fun none => absurd none nothing⟩
    intro _
    have done := holds.done
    simp only [List.length_append] at done ⊢
    rw [done]
    congr 1
    omega

/-- Every message given in pieces to an encoder with enough space becomes a frame
    behind the finished bytes: all of it is taken, the delimiter is the only zero and
    the last byte, and each block limit costs one byte.  The frame is counted, except
    that the count starts over for a message without data. -/
theorem frames_delimited (c : Codec) (t : Iovec) (info : EncodeState) (m : Mem Byte)
    (fin : List Byte) (srcs : List (List Byte)) (target : t.base ≠ 0)
    (start : Holds c.variant info m t.base fin none)
    (room : fin.length + (srcs.flatten.length +
      srcs.flatten.length / (c.variant.maxlen - 1) + 2) ≤ t.len) :
    ∃ info' m' frame, message c t info m srcs = (info', m', srcs.flatten.length) ∧
      Delimited c.variant srcs.flatten.length frame ∧
      m'.read t.base (fin ++ frame).length = fin ++ frame ∧
      (srcs.flatten ≠ [] ∨ fin = [] →
        info' = ⟨0, (fin ++ frame).length, 0⟩) := by
  obtain ⟨info', m', bs, o, run, ok, short, whole, placed, counted, _⟩ :=
    message_placed c t info m fin srcs target start room
  have form := delimited ok short c.tail
  rw [whole] at form
  exact ⟨info', m', _, run, form, placed, counted⟩

/-- A message with a zero between its pieces, on a fresh encoder. -/
theorem frames_delimited_example :
    ∃ info' m' frame, message .cobsZpeR ⟨16, 9⟩ .init (fun _ => 0) [[5, 0], [], [0, 9]] =
        (info', m', 4) ∧
      Delimited .zpe 4 frame ∧ m'.read 16 frame.length = frame ∧
      info' = ⟨0, frame.length, 0⟩ := by
  obtain ⟨info', m', frame, run, form, placed, counted⟩ :=
    frames_delimited .cobsZpeR ⟨16, 9⟩ .init (fun _ => 0) [] [[5, 0], [], [0, 9]] (by decide)
      (Holds.init _ _ _) (by decide)
  exact ⟨info', m', frame, run, form, placed, counted (.inr rfl)⟩

end Mpt.Cobs.Frames
