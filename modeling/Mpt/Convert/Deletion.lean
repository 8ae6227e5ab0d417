import Mpt.Convert.Frame
import Mpt.Convert.Extent
import Mpt.Convert.Text

/-! # Taking messages back

A call without data asks an encoder to forget its last messages.  What it should do is
said by a run in which they were never pushed: the same state, and the same bytes up to
`info.done`.
-/

namespace Mpt.Cobs.Deletion

open Mpt.Cobs.Frames (Blocks pieces message)

variable {c : Codec} {t : Iovec}

/-- Messages pushed and terminated one after the other, each in pieces. -/
def finished (c : Codec) (t : Iovec) (info : EncodeState) (m : Mem Byte) :
    List (List (List Byte)) → EncodeState × Mem Byte
  | [] => (info, m)
  | srcs :: rest =>
      let (info, m, _) := message c t info m srcs
      finished c t info m rest

/-- Messages pushed and terminated, and the part of another one. -/
def pushed (c : Codec) (t : Iovec) (info : EncodeState) (m : Mem Byte)
    (msgs : List (List (List Byte))) (part : List (List Byte)) : EncodeState × Mem Byte :=
  let (info, m) := finished c t info m msgs
  let (info, m, _) := pieces c t info m part
  (info, m)

/-- The space that is enough for messages and a part of another one. -/
def space (v : Variant) (msgs : List (List (List Byte))) : Nat :=
  (msgs.map fun srcs => srcs.flatten.length + srcs.flatten.length / (v.maxlen - 1) + 2).sum

/-- The answer to a deletion is success, and state and finished bytes are those of the
    run `kept`. -/
structure Removed (base : Nat) (kept : EncodeState × Mem Byte)
    (r : EncodeState × Mem Byte × Except Error Nat) : Prop where
  success : ∃ n, r.2.2 = .ok n
  state : r.1 = kept.1
  bytes : r.2.1.read base r.1.done = kept.2.read base kept.1.done

theorem lt_splitSize (v : Variant) (o : List Byte) {p : List Byte} (some : p ≠ []) :
    o.length + 1 < splitSize v (split v o p) := by
  cases p with
  | nil => exact absurd rfl some
  | cons b p =>
      by_cases zero : b = 0
      · subst zero
        cases p with
        | nil =>
            have := splitSize_add (v := v) ⟨o, .zero⟩ ([], [])
            simp only [split, if_true, this]
            simp [splitSize]
        | cons next rest =>
            simp only [split, if_true]
            split
            · have := le_splitSize (v := v) [] rest
              rw [splitSize_add]
              simp only [List.length_nil] at this ⊢
              omega
            · have := le_splitSize (v := v) [] (next :: rest)
              rw [splitSize_add]
              simp only [List.length_nil] at this ⊢
              omega
      · by_cases full : o.length + 2 = v.maxlen
        · have := le_splitSize (v := v) [] p
          rw [split_full zero full, splitSize_add]
          simp only [List.length_append, List.length_singleton, List.length_nil] at this ⊢
          omega
        · have := le_splitSize (v := v) (o ++ [b]) p
          rw [split_data zero full]
          simp only [List.length_append, List.length_singleton] at this
          omega

/-- A data call adds to the private counter what it adds to the target. -/
theorem encode_ctx {v : Variant} {info : EncodeState} {m : Mem Byte} {fin : List Byte}
    {o : Option (List Byte)} (h : Holds v info m t.base fin o) {src : List Byte} {n : Nat}
    {info' : EncodeState} {m' : Mem Byte}
    (call : encode v info m (some t) (some (.bytes src)) = (info', m', .ok n))
    (more : info.done + info.scratch < info'.done + info'.scratch) : info'.ctx ≠ 0 := by
  have code := h.code
  simp only [encode, code] at call
  by_cases null : t.base = 0
  · rw [if_pos null] at call
    split at call <;> cases call
  rw [if_neg null] at call
  by_cases bad : t.len < info.done ∨ t.len - info.done < info.scratch % 256
  · rw [if_pos bad] at call
    cases call
  rw [if_neg bad] at call
  by_cases nothing : src.length = 0
  · rw [if_pos nothing] at call
    cases call
  rw [if_neg nothing] at call
  by_cases full : t.len - info.done ≤ (o.getD []).length + 1
  · rw [if_pos full] at call
    cases call
  rw [if_neg full] at call
  obtain ⟨rfl, _⟩ := Prod.mk.inj call
  simp only at more ⊢
  have loop := Extent.encodeLoop_inside (v := v) m (t.base + info.done)
    (t.base + info.done + ((o.getD []).length + 1)) ((o.getD []).length + 1)
    (t.len - info.done - ((o.getD []).length + 1)) src (Nat.succ_pos _) h.short.size
    (Nat.le_refl _)
  have fits := loop.fits
  omega

/-- The state between messages. -/
structure Between (c : Codec) (t : Iovec) (fin : List Byte) (s : EncodeState × Mem Byte) : Prop where
  holds : Holds c.variant s.1 s.2 t.base fin none
  ctx : s.1.ctx = 0

theorem Between.state {fin : List Byte} {s : EncodeState × Mem Byte} (h : Between c t fin s) :
    s.1 = ⟨0, fin.length, 0⟩ := by
  obtain ⟨⟨ctx, done, scratch⟩, m⟩ := s
  obtain rfl : ctx = 0 := h.ctx
  obtain rfl : done = fin.length := h.holds.done
  obtain rfl : scratch = 0 := h.holds.scratch
  rfl

theorem Between.bytes {fin : List Byte} {s : EncodeState × Mem Byte} (h : Between c t fin s) :
    s.2.read t.base s.1.done = fin := by
  rw [h.holds.done]
  exact h.holds.front

/-- A terminated message leaves the state between messages, with no more bytes than it
    may take. -/
theorem message_between (target : t.base ≠ 0) {fin : List Byte} {info : EncodeState}
    {m : Mem Byte} (h : Between c t fin (info, m)) {srcs : List (List Byte)}
    (room : fin.length + (srcs.flatten.length +
      srcs.flatten.length / (c.variant.maxlen - 1) + 2) ≤ t.len) :
    ∃ fin', fin'.length ≤ fin.length + (srcs.flatten.length +
        srcs.flatten.length / (c.variant.maxlen - 1) + 2) ∧
      Between c t fin' ((message c t info m srcs).1, (message c t info m srcs).2.1) := by
  obtain ⟨info', m', bs, o, run, ok, short, whole, placed, counted, empty⟩ :=
    Frames.message_placed c t info m fin srcs target h.holds room
  have size := (Frames.delimited ok short c.tail).size
  rw [whole] at size
  rw [run]
  by_cases nothing : srcs.flatten = []
  · refine ⟨m'.read t.base 2, ?_, ⟨?_, ?_, ?_, short_nil _⟩, ?_⟩
    · rw [Mem.length_read, ← Nat.add_assoc]
      exact Nat.le_add_left _ _
    · rw [empty nothing, Mem.length_read]
    · rw [empty nothing]
      rfl
    · rw [empty nothing]
      simp [progress]
    · rw [empty nothing]
  · have state := counted (.inl nothing)
    refine ⟨fin ++ (encoded c.variant bs ++ (closed c.variant c.tail o ++ [0])), ?_,
      ⟨?_, ?_, ?_, short_nil _⟩, ?_⟩
    · rw [List.length_append]
      omega
    · rw [state]
    · rw [state]
      rfl
    · rw [state]
      simpa [progress] using placed
    · rw [state]

theorem finished_between (target : t.base ≠ 0) (msgs : List (List (List Byte)))
    {fin : List Byte} {info : EncodeState} {m : Mem Byte} (h : Between c t fin (info, m))
    (room : fin.length + space c.variant msgs ≤ t.len) :
    ∃ fin', fin'.length ≤ fin.length + space c.variant msgs ∧
      Between c t fin' (finished c t info m msgs) := by
  induction msgs generalizing fin info m with
  | nil => exact ⟨fin, Nat.le_add_right _ _, h⟩
  | cons srcs rest ih =>
      simp only [space, List.map_cons, List.sum_cons] at room
      have first : fin.length + (srcs.flatten.length +
          srcs.flatten.length / (c.variant.maxlen - 1) + 2) ≤ t.len := by omega
      obtain ⟨fin₁, size, next⟩ := message_between target h first
      obtain ⟨fin', size', after⟩ := ih next (by simp only [space]; omega)
      refine ⟨fin', ?_, after⟩
      simp only [space, List.map_cons, List.sum_cons] at size' ⊢
      omega

/-- The private counter tells whether a message is in progress. -/
theorem pieces_ctx (target : t.base ≠ 0) (srcs : List (List Byte)) {info : EncodeState}
    {m : Mem Byte} {fin taken o : List Byte} {bs : List Block}
    (h : Blocks c.variant info m t.base fin taken bs o) (ctx : info.ctx = 0 ↔ taken = []) {n : Nat}
    (le : (taken ++ srcs.flatten).length ≤ n)
    (room : fin.length + (n + n / (c.variant.maxlen - 1) + 2) ≤ t.len) :
    (pieces c t info m srcs).1.ctx = 0 ↔ taken ++ srcs.flatten = [] := by
  induction srcs generalizing info m taken o bs with
  | nil => simpa [pieces] using ctx
  | cons src rest ih =>
      rw [List.flatten_cons, ← List.append_assoc] at le ⊢
      by_cases nothing : src = []
      · subst nothing
        rw [List.append_nil] at le ⊢
        obtain ⟨e, call⟩ := Frames.encode_nothing c.variant info m t
        simp only [pieces, encoder_data, call]
        exact ih h ctx le
      · obtain ⟨info₁, m₁, call, grown⟩ := h.add target nothing
          (by rw [List.length_append] at le; omega) room
        have done := h.holds.done
        have scratch := h.holds.scratch
        have done' := grown.holds.done
        have scratch' := grown.holds.scratch
        have some : taken ++ src ≠ [] := by simp [nothing]
        have more := lt_splitSize c.variant o nothing
        have before : (progress (if taken = [] then none else Option.some o)).length ≤
            o.length + 1 := by
          split <;> simp [progress]
        rw [if_neg some, progress, length_opened] at scratch'
        simp only [encoded_append, List.length_append, splitSize, length_opened] at done done' more
        have counted : info₁.ctx ≠ 0 := by
          rw [encoder_data] at call
          exact encode_ctx h.holds call (by omega)
        simp only [pieces, call]
        exact ih grown (iff_of_false counted some) le

theorem encoder_delete (c : Codec) (info : EncodeState) (m : Mem Byte) (t : Iovec) (n : Nat) :
    c.encoder info m (some t) (some (.null n)) =
      encode c.variant info m (some t) (some (.null n)) := by
  unfold Codec.encoder
  split <;> rfl

/-- A deletion by a consistent encoder is one run of the search. -/
theorem encode_delete {v : Variant} {info : EncodeState} (target : t.base ≠ 0)
    (fits : info.done + info.scratch ≤ t.len) (m : Mem Byte) {n : Nat} (some : n ≠ 0) :
    encode v info m (Option.some t) (Option.some (.null n)) =
      match deleteLoop m info.done (if info.ctx ≠ 0 then n - 1 else n) with
      | none => (info, m, .error .badValue)
      | Option.some pos => (⟨0, pos, 0⟩, m, .ok pos) := by
  have code := Nat.mod_le info.scratch 256
  simp only [encode]
  refine (if_neg target).trans ((if_neg ?_).trans (if_neg some))
  omega

/-- A range without the byte has no last one. -/
theorem memrchr_none (m : Mem Byte) (base : Nat) (tok : Byte) (len : Nat)
    (free : ∀ i, i < len → m (base + i) ≠ tok) : memrchr m base tok len = none := by
  induction len with
  | zero => rfl
  | succ len ih =>
      unfold memrchr
      rw [if_neg (free len (Nat.lt_succ_self _))]
      exact ih fun i lt => free i (Nat.lt_succ_of_lt lt)

/-- The number of messages: one in progress counts as one. -/
def count (msgs : List (List (List Byte))) (part : List (List Byte)) : Nat :=
  msgs.length + if part.flatten = [] then 0 else 1

/-- A deletion works, whatever stands in front of the target, exactly when it is for one
    message, that is in progress, and none of its blocks is finished: the search for
    delimiters starts at a null pointer. -/
theorem deletes_open_message (c : Codec) (t : Iovec) (m : Mem Byte)
    (msgs : List (List (List Byte))) (part : List (List Byte)) (n : Nat) (target : t.base ≠ 0)
    (apart : t.len ≤ t.base)
    (room : space c.variant msgs + (part.flatten.length +
      part.flatten.length / (c.variant.maxlen - 1) + 2) ≤ t.len) :
    let s := pushed c t .init m msgs part
    (∀ m' : Mem Byte, (∀ a, t.base ≤ a → m' a = s.2 a) →
      Removed t.base (finished c t .init m (msgs.take (count msgs part - n)))
        (c.encoder s.1 m' (some t) (some (.null n)))) ↔
      n = 1 ∧ part.flatten ≠ [] ∧ s.1.done = (finished c t .init m msgs).1.done := by
  intro s
  have fresh : Between c t [] (EncodeState.init, m) := ⟨Holds.init _ _ _, rfl⟩
  have overhead := Nat.zero_le (part.flatten.length / (c.variant.maxlen - 1))
  obtain ⟨fin, size, between⟩ := finished_between target msgs fresh (by
    simp only [List.length_nil]
    omega)
  rw [List.length_nil, Nat.zero_add] at size
  have left : fin.length + (part.flatten.length +
      part.flatten.length / (c.variant.maxlen - 1) + 2) ≤ t.len := by omega
  obtain ⟨info₁, m₁, bs, o, run, h⟩ := Frames.pieces_blocks target part
    (Frames.blocks_nil between.holds) (Nat.le_refl _) left
  have ctx := pieces_ctx target part (Frames.blocks_nil between.holds)
    (iff_of_true between.ctx rfl) (Nat.le_refl _) left
  rw [List.nil_append] at h ctx
  have state : s = (info₁, m₁) := by
    simp only [s, pushed, run]
  rw [run] at ctx
  have used := h.size (Nat.le_refl _)
  have done := h.holds.done
  have fits : info₁.done + info₁.scratch ≤ t.len := by
    have scratch := h.holds.scratch
    have open_le : (progress (if part.flatten = [] then none else Option.some o)).length ≤
        o.length + 1 := by
      split <;> simp [progress]
    omega
  simp only [state, encoder_delete]
  by_cases nonzero : n = 0
  · subst nonzero
    have code := Nat.mod_le info₁.scratch 256
    have refused : encode c.variant info₁ m₁ (some t) (some (.null 0)) =
        (info₁, m₁, .error .badValue) := by
      simp only [encode]
      rw [if_neg target, if_neg (by omega)]
      rfl
    refine iff_of_false (fun removed => ?_) (fun one => absurd one.1 (by decide))
    obtain ⟨r, success⟩ := (removed m₁ fun _ _ => rfl).success
    rw [refused] at success
    cases success
  have call := fun m' => encode_delete (v := c.variant) target fits m' nonzero
  simp only [call]
  by_cases single : (if info₁.ctx ≠ 0 then n - 1 else n) = 0
  · have inProgress : info₁.ctx ≠ 0 := by
      intro zero
      rw [if_neg (fun h => h zero)] at single
      exact nonzero single
    have one : n = 1 := by
      rw [if_pos inProgress] at single
      omega
    have isOpen : part.flatten ≠ [] := fun none => inProgress (ctx.mpr none)
    have kept : msgs.take (count msgs part - n) = msgs := by
      rw [count, if_neg isOpen, one, Nat.add_sub_cancel, List.take_length]
    rw [single, kept]
    simp only [deleteLoop]
    constructor
    · intro removed
      have same : (⟨0, info₁.done, 0⟩ : EncodeState) = (finished c t .init m msgs).1 :=
        (removed m₁ fun _ _ => rfl).state
      have counted := congrArg EncodeState.done same
      exact ⟨one, isOpen, counted⟩
    · rintro ⟨_, _, same⟩ m' agree
      have state := between.state
      have finDone : info₁.done = fin.length := by rw [same, state]
      refine ⟨⟨_, rfl⟩, ?_, ?_⟩
      · rw [state, finDone]
      · rw [between.bytes]
        have front := h.holds.front
        have blocks : encoded c.variant bs = [] := by
          rw [List.length_append] at done
          exact List.length_eq_zero_iff.mp (by omega)
        rw [blocks, List.append_nil] at front
        rw [← front, ← finDone]
        apply Mem.read_congr
        intro a low _
        exact agree a low
  · constructor
    · intro removed
      exfalso
      obtain ⟨k, more⟩ := Nat.exists_eq_succ_of_ne_zero single
      have nothing : memrchr (fun a => if a < t.base then 1 else m₁ a) 0 0 info₁.done = none := by
        apply memrchr_none
        intro i lt
        rw [if_pos (by omega)]
        decide
      obtain ⟨r, success⟩ := (removed (fun a => if a < t.base then 1 else m₁ a)
        (fun a low => if_neg (by omega))).success
      rw [more] at success
      simp [deleteLoop, nothing] at success
    · rintro ⟨one, isOpen, _⟩
      exfalso
      rw [if_pos (fun zero => isOpen (ctx.mp zero)), one] at single
      exact single rfl

end Mpt.Cobs.Deletion

