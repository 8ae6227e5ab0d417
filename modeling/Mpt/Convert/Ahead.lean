import Mpt.Convert.InPlace

/-! # Decoding ahead

A call of a decoder for the first part of its source goes on with the block that it
is in and with nothing else.  How far that was makes no difference to the calls that
follow.
-/

namespace Mpt.Cobs

open InPlace (view)

variable {v : Variant} {A : List Nat} {m : Mem Byte} {dec : DecodeState}

/-- The code of the block that is decoded. -/
def blockCode (dec : DecodeState) : Nat := dec.ctx % 0x100

/-- The position in it. -/
def blockPos (dec : DecodeState) : Nat := dec.ctx % 0x10000 / 0x100

/-- A message is in progress and has decoded bytes, free space behind them and unread
    bytes behind that, inside a block. -/
structure Midway (A : List Nat) (dec : DecodeState) : Prop where
  msg : dec.msg = none
  some : dec.len ≠ 0
  code : blockCode dec ≠ 0
  ctx : dec.ctx < 0x10000
  order : dec.pos + dec.len ≤ dec.curr
  inside : dec.curr ≤ A.length

/-- The next byte of the block can be stored. -/
structure Can (v : Variant) (A : List Nat) (dec : DecodeState) (m : Mem Byte) : Prop
    extends Midway A dec where
  data : blockPos dec < lenData v (blockCode dec)
  gap : dec.pos + dec.len < dec.curr
  more : dec.curr < A.length
  value : m ((A.drop dec.curr).headD 0) ≠ 0

/-- The state when it is. -/
def forward (dec : DecodeState) : DecodeState :=
  { dec with
    ctx := cobsState (blockCode dec) (blockPos dec + 1)
    curr := dec.curr + 1
    len := dec.len + 1 }

/-- The storage when it is. -/
def storeNext (A : List Nat) (dec : DecodeState) (m : Mem Byte) : Mem Byte :=
  m.set ((A.drop (dec.pos + dec.len)).headD 0) (m ((A.drop dec.curr).headD 0))

/-- Any number of bytes is stored. -/
inductive Ahead (v : Variant) (A : List Nat) :
    DecodeState → Mem Byte → DecodeState → Mem Byte → Prop where
  | refl (dec : DecodeState) (m : Mem Byte) : Ahead v A dec m dec m
  | step {dec dec' : DecodeState} {m m' : Mem Byte} (can : Can v A dec m)
      (rest : Ahead v A (forward dec) (storeNext A dec m) dec' m') : Ahead v A dec m dec' m'

theorem Ahead.trans {dec₁ dec₂ dec₃ : DecodeState} {m₁ m₂ m₃ : Mem Byte}
    (h : Ahead v A dec₁ m₁ dec₂ m₂) (h' : Ahead v A dec₂ m₂ dec₃ m₃) :
    Ahead v A dec₁ m₁ dec₃ m₃ := by
  induction h with
  | refl => exact h'
  | step can _ ih => exact .step can (ih h')

theorem lenData_lt (v : Variant) {code : Nat} (byte : code < 0x100) : lenData v code < 0x100 := by
  unfold lenData
  split <;> omega

/-- The data and the zeros of a block are no more than a byte counts. -/
theorem behind_lt (v : Variant) {code : Nat} (byte : code < 0x100) (next : Nat) :
    lenData v code + lenZero v code next ≤ 0x100 := by
  unfold lenData lenZero
  split_ifs <;> omega

theorem forward_code (dec : DecodeState) : blockCode (forward dec) = blockCode dec := by
  have byte : blockCode dec < 0x100 := Nat.mod_lt _ (by decide)
  simp only [forward, cobsState, blockCode] at byte ⊢
  omega

theorem forward_pos (can : Can v A dec m) : blockPos (forward dec) = blockPos dec + 1 := by
  have byte : blockCode dec < 0x100 := Nat.mod_lt _ (by decide)
  have low := lenData_lt v byte
  have data := can.data
  show cobsState (blockCode dec) (blockPos dec + 1) % 0x10000 / 0x100 = blockPos dec + 1
  unfold cobsState
  omega

theorem forward_inside (can : Can v A dec m) : Midway A (forward dec) where
  msg := can.msg
  some := Nat.succ_ne_zero _
  code := by
    rw [forward_code]
    exact can.code
  ctx := by
    have byte : blockCode dec < 0x100 := Nat.mod_lt _ (by decide)
    have low := lenData_lt v byte
    have data := can.data
    simp only [forward, cobsState]
    omega
  order := by
    have gap := can.gap
    simp only [forward]
    omega
  inside := can.more

/-- A call with a message in progress, in terms of the bytes of its source. -/
theorem decode_inside {source : List Iovec} {n : Nat} (h : Midway (view source n) dec) :
    ∃ dst src : Message, dst.bytes = (view source n).drop (dec.pos + dec.len) ∧
      src.bytes = (view source n).drop dec.curr ∧
      decode v dec m (.some source) n =
        decodeBlocks v dec m (decide (n = 0)) dst src dec.pos dec.len
          (dec.curr - (dec.pos + dec.len)) (blockCode dec) (blockPos dec) := by
  obtain ⟨ctx, curr, pos, len, msg⟩ := dec
  obtain ⟨none, some, code, _, order, inside⟩ := h
  simp only at none some order inside
  subst none
  have used := ((sourceParts source n).read_spec (pos + len)).1
  have left := ((sourceParts source n).read_spec (pos + len)).2.1
  have size : ((sourceParts source n).read (pos + len)).2.length = pos + len := by
    rw [used, List.length_take]
    unfold view at inside
    omega
  unfold decode
  simp only
  generalize (sourceParts source n).read (pos + len) = first at *
  obtain ⟨tmp, used'⟩ := first
  simp only at left size ⊢
  rw [if_neg (by omega)]
  simp only [ne_eq, not_true_eq_false, false_and, if_false, Option.getD_none, Nat.sub_zero, some,
    Nat.add_zero]
  have free := (tmp.read_spec (curr - (pos + len))).1
  have behind := (tmp.read_spec (curr - (pos + len))).2.1
  have long : (tmp.read (curr - (pos + len))).2.length = curr - (pos + len) := by
    rw [free, left, List.length_take, List.length_drop]
    unfold view at inside
    omega
  unfold decodeFrom
  generalize tmp.read (curr - (pos + len)) = second at *
  obtain ⟨msg, free'⟩ := second
  simp only [blockCode] at behind long code ⊢
  rw [if_neg (by omega), if_neg code]
  refine ⟨tmp, msg, left, ?_, rfl⟩
  rw [behind, left, List.drop_drop]
  unfold view
  congr 1
  omega

/-- The bytes in front and behind in the state that a byte brings. -/
theorem can_drops (can : Can v A dec m) :
    A.drop dec.curr = (A.drop dec.curr).headD 0 :: A.drop (dec.curr + 1) ∧
      A.drop (dec.pos + dec.len + 1) = (A.drop (dec.pos + dec.len)).tail := by
  have more := can.more
  refine ⟨?_, by rw [List.tail_drop]⟩
  rw [List.drop_eq_getElem_cons more, List.headD_cons]

/-- The block loop takes the byte. -/
theorem loop_forward (can : Can v A dec m) (one : Bool) :
    decodeLoop v one m (A.drop (dec.pos + dec.len)) dec.len (dec.curr - (dec.pos + dec.len))
        (blockCode dec) (blockPos dec) (A.drop dec.curr) =
      decodeLoop v one (storeNext A dec m) (A.drop ((forward dec).pos + (forward dec).len))
        (forward dec).len ((forward dec).curr - ((forward dec).pos + (forward dec).len))
        (blockCode (forward dec)) (blockPos (forward dec)) (A.drop (forward dec).curr) := by
  obtain ⟨unread, front⟩ := can_drops can
  have gap := can.gap
  rw [forward_code, forward_pos can, unread]
  conv_lhs => unfold decodeLoop
  rw [if_neg can.code, if_pos can.data, if_neg can.value, if_neg (by omega)]
  have proc : dec.curr + 1 - (dec.pos + dec.len + 1) = dec.curr - (dec.pos + dec.len) := by omega
  have next : dec.pos + (dec.len + 1) = dec.pos + dec.len + 1 := rfl
  simp only [forward, storeNext, next, front, proc]

/-- A call does not depend on how much of the block was decoded before. -/
theorem decode_forward {source : List Iovec} {n : Nat}
    (can : Can v (view source n) dec m) :
    decode v (forward dec) (storeNext (view source n) dec m) (.some source) n =
      decode v dec m (.some source) n := by
  obtain ⟨dst, src, front, unread, eq⟩ := decode_inside (v := v) (m := m) can.toMidway
  obtain ⟨dst', src', front', unread', eq'⟩ :=
    decode_inside (v := v) (m := storeNext (view source n) dec m) (forward_inside can)
  rw [eq, eq']
  unfold decodeBlocks
  rw [front, unread, front', unread', loop_forward can]
  rfl

theorem decodeR_forward {source : List Iovec} {n : Nat}
    (can : Can v (view source n) dec m) :
    decodeR v (forward dec) (storeNext (view source n) dec m) (.some source) n =
      decodeR v dec m (.some source) n := by
  unfold decodeR
  rw [decode_forward can]

theorem decoder_forward {c : Codec} {source : List Iovec} {n : Nat}
    (can : Can c.variant (view source n) dec m) :
    c.decoder (forward dec) (storeNext (view source n) dec m) (.some source) n =
      c.decoder dec m (.some source) n := by
  unfold Codec.decoder
  split
  · exact decodeR_forward can
  · exact decode_forward can

theorem decoder_ahead {c : Codec} {source : List Iovec} {n : Nat}
    {dec' : DecodeState} {m' : Mem Byte} (h : Ahead c.variant (view source n) dec m dec' m') :
    c.decoder dec' m' (.some source) n = c.decoder dec m (.some source) n := by
  induction h with
  | refl => rfl
  | step can _ ih => exact ih.trans (decoder_forward can)

/-- The block loop for one block stores bytes of that block and nothing else. -/
theorem loop_ahead (h : Midway A dec) :
    ∃ dec' m' stop, decodeLoop v true m (A.drop (dec.pos + dec.len)) dec.len
        (dec.curr - (dec.pos + dec.len)) (blockCode dec) (blockPos dec) (A.drop dec.curr) =
          ⟨m', dec'.len, dec'.curr - (dec'.pos + dec'.len), blockCode dec', blockPos dec', stop⟩ ∧
      Ahead v A dec m dec' m' ∧ Midway A dec' ∧ dec'.pos = dec.pos ∧
        (stop = .more ∨ stop = .missingData) := by
  generalize size : A.length - dec.curr = n
  induction n generalizing dec m with
  | zero =>
      have nothing : A.drop dec.curr = [] := List.drop_eq_nil_of_le (by omega)
      refine ⟨dec, m, .more, ?_, .refl dec m, h, rfl, .inl rfl⟩
      rw [nothing]
      unfold decodeLoop
      rw [if_neg h.code]
  | succ n ih =>
      have more : dec.curr < A.length := by omega
      have unread : A.drop dec.curr = (A.drop dec.curr).headD 0 :: A.drop (dec.curr + 1) := by
        rw [List.drop_eq_getElem_cons more, List.headD_cons]
      have stays : ∀ stop, (stop = .more ∨ stop = .missingData) →
          decodeLoop v true m (A.drop (dec.pos + dec.len)) dec.len
            (dec.curr - (dec.pos + dec.len)) (blockCode dec) (blockPos dec) (A.drop dec.curr) =
              ⟨m, dec.len, dec.curr - (dec.pos + dec.len), blockCode dec, blockPos dec, stop⟩ →
          ∃ dec' m' stop, decodeLoop v true m (A.drop (dec.pos + dec.len)) dec.len
              (dec.curr - (dec.pos + dec.len)) (blockCode dec) (blockPos dec) (A.drop dec.curr) =
                ⟨m', dec'.len, dec'.curr - (dec'.pos + dec'.len), blockCode dec', blockPos dec',
                  stop⟩ ∧
            Ahead v A dec m dec' m' ∧ Midway A dec' ∧ dec'.pos = dec.pos ∧
              (stop = .more ∨ stop = .missingData) :=
        fun stop kind run => ⟨dec, m, stop, run, .refl dec m, h, rfl, kind⟩
      by_cases data : blockPos dec < lenData v (blockCode dec)
      · by_cases value : m ((A.drop dec.curr).headD 0) = 0
        · refine stays .missingData (.inr rfl) ?_
          rw [unread]
          unfold decodeLoop
          rw [if_neg h.code, if_pos data, if_pos value]
        · by_cases full : dec.curr - (dec.pos + dec.len) = 0
          · refine stays .more (.inl rfl) ?_
            rw [unread]
            unfold decodeLoop
            rw [if_neg h.code, if_pos data, if_neg value, if_pos full]
          · have order := h.order
            have can : Can v A dec m := ⟨h, data, by omega, more, value⟩
            have next : A.length - (forward dec).curr = n := by
              simp only [forward]
              omega
            obtain ⟨dec', m', stop, run, ahead, inside, pos, kind⟩ :=
              ih (m := storeNext A dec m) (forward_inside can) next
            exact ⟨dec', m', stop, (loop_forward can true).trans run, .step can ahead, inside, pos,
              kind⟩
      · refine stays .more (.inl rfl) ?_
        rw [unread]
        unfold decodeLoop
        rw [if_neg h.code, if_neg data, if_pos rfl]

/-- A state before the start of a message has no code. -/
structure Settled (dec : DecodeState) : Prop where
  ctx : dec.ctx < 0x10000
  msg : dec.msg = none ∨ dec.msg = some dec.len
  code : blockCode dec = 0 → dec.len = 0 ∨ dec.msg ≠ none

theorem cobsState_eq (ctx : dec.ctx < 0x10000) :
    cobsState (blockCode dec) (blockPos dec) = dec.ctx := by
  unfold cobsState blockCode blockPos
  omega

/-- A message in progress that is not within the source. -/
theorem decode_short {source : List Iovec} {n : Nat} (busy : dec.msg = none) (some : dec.len ≠ 0)
    (fits : ¬ (dec.pos + dec.len ≤ dec.curr ∧ dec.curr ≤ (view source n).length)) :
    decode v dec m (.some source) n = (dec, m, .error .badArgument) := by
  obtain ⟨ctx, curr, pos, len, msg'⟩ := dec
  simp only at busy some fits
  subst busy
  have used := ((sourceParts source n).read_spec (pos + len)).1
  have left := ((sourceParts source n).read_spec (pos + len)).2.1
  unfold decode
  simp only
  generalize (sourceParts source n).read (pos + len) = first at *
  obtain ⟨tmp, used'⟩ := first
  simp only at used left ⊢
  by_cases early : curr < pos + len ∨ used'.length < pos + len
  · rw [if_pos early]
  · rw [if_neg early]
    simp only [ne_eq, not_true_eq_false, false_and, if_false, Option.getD_none, Nat.sub_zero,
      if_neg some, Nat.add_zero]
    have free := (tmp.read_spec (curr - (pos + len))).1
    unfold decodeFrom
    generalize tmp.read (curr - (pos + len)) = second at *
    obtain ⟨msg, free'⟩ := second
    simp only at free ⊢
    have took := congrArg List.length used
    rw [List.length_take] at took
    have missing : free'.length < curr - (pos + len) := by
      rw [free, left, List.length_take, List.length_drop]
      unfold view at fits
      omega
    rw [if_pos missing]

/-- A call for one block stores bytes of that block, or it does nothing. -/
theorem decode_first (source : List Iovec) (settled : Settled dec) :
    ∃ dec' m' ret, decode v dec m (.some source) 0 = (dec', m', ret) ∧
      Ahead v (view source 0) dec m dec' m' ∧
      (∀ k, ret = .ok k → Midway (view source 0) dec' ∧ dec'.pos = dec.pos) ∧
      (ret = .error .missingData → dec'.ctx ≠ 0) := by
  by_cases busy : dec.msg = none ∧ dec.len ≠ 0
  · by_cases fits : dec.pos + dec.len ≤ dec.curr ∧ dec.curr ≤ (view source 0).length
    · have inside : Midway (view source 0) dec :=
        ⟨busy.1, busy.2, fun zero => (settled.code zero).elim busy.2 fun some => some busy.1,
          settled.ctx, fits.1, fits.2⟩
      obtain ⟨dst, src, front, unread, eq⟩ := decode_inside (v := v) (m := m) inside
      obtain ⟨dec', m', stop, run, ahead, inside', pos, kind⟩ :=
        loop_ahead (v := v) (m := m) inside
      have order := inside'.order
      have curr : dec.pos + dec'.len + (dec'.curr - (dec'.pos + dec'.len)) = dec'.curr := by omega
      have code : dec'.ctx ≠ 0 := by
        intro zero
        exact inside'.code (by simp [blockCode, zero])
      have saved : (⟨dec'.ctx, dec'.curr, dec.pos, dec'.len, dec.msg⟩ : DecodeState) = dec' := by
        rw [← pos, busy.1, ← inside'.msg]
      rw [eq]
      unfold decodeBlocks
      rw [front, unread, decide_eq_true rfl, run]
      rcases kind with rfl | rfl
      · simp only [curr, cobsState_eq inside'.ctx, saved]
        exact ⟨_, _, _, rfl, ahead, fun _ _ => ⟨inside', pos⟩, nofun⟩
      · simp only [curr, cobsState_eq inside'.ctx, saved]
        exact ⟨_, _, _, rfl, ahead, fun _ ok => (by cases ok), fun _ => code⟩
    · exact ⟨dec, m, _, decode_short busy.1 busy.2 fits, .refl dec m, fun _ ok => (by cases ok),
        nofun⟩
  · have nothing : ∃ e, decode v dec m (.some source) 0 = (dec, m, .error e) ∧
        e ≠ .missingData := by
      obtain ⟨ctx, curr, pos, len, msg⟩ := dec
      unfold decode
      simp only
      split
      · exact ⟨_, rfl, nofun⟩
      · cases msg with
        | none =>
            have zero : len = 0 := by
              by_contra some
              exact busy ⟨rfl, some⟩
            subst zero
            simp
        | some k => simp
    obtain ⟨e, run, other⟩ := nothing
    exact ⟨dec, m, _, run, .refl dec m, fun _ ok => (by cases ok),
      fun missing => absurd (Except.error.inj missing) other⟩

/-- There are no parts behind the first one. -/
theorem read_nothing (n : Nat) : ((⟨0, 0, []⟩ : Message).read n).1.used = 0 := by
  simp only [Message.read, Message.readParts]
  split
  · rfl
  · exact Nat.zero_sub n

theorem decoder_first {c : Codec} (source : List Iovec) (settled : Settled dec) :
    ∃ dec' m' ret, c.decoder dec m (.some source) 0 = (dec', m', ret) ∧
      Ahead c.variant (view source 0) dec m dec' m' ∧
      (∀ k, ret = .ok k → Midway (view source 0) dec' ∧ dec'.pos = dec.pos) := by
  obtain ⟨dec', m', ret, run, ahead, inside, some⟩ :=
    decode_first (v := c.variant) (m := m) source settled
  unfold Codec.decoder
  cases c.tail with
  | false => exact ⟨dec', m', ret, run, ahead, inside⟩
  | true =>
      simp only [if_true, decodeR, run]
      cases ret with
      | ok k => exact ⟨dec', m', _, rfl, ahead, inside⟩
      | error e =>
          cases e with
          | missingData =>
              simp only
              rw [if_neg (some rfl), List.take_zero, if_pos (read_nothing _)]
              exact ⟨dec', m', _, rfl, ahead, fun _ ok => by cases ok⟩
          | _ => exact ⟨dec', m', _, rfl, ahead, fun _ ok => by cases ok⟩

/-- The same state on a source with `off` bytes in front. -/
def raise (off : Nat) (dec : DecodeState) : DecodeState :=
  { dec with pos := dec.pos + off, curr := dec.curr + off }

theorem headD_front {B : List Nat} {off i : Nat} (part : B <+: A.drop off) (inside : i < B.length) :
    (A.drop (i + off)).headD 0 = (B.drop i).headD 0 := by
  obtain ⟨rest, eq⟩ := part
  rw [Nat.add_comm, ← List.drop_drop, ← eq, List.drop_append_of_le_length (Nat.le_of_lt inside),
    List.drop_eq_getElem_cons inside]
  rfl

theorem raise_can {B : List Nat} {off : Nat} (part : B <+: A.drop off) (can : Can v B dec m) :
    Can v A (raise off dec) m ∧ storeNext A (raise off dec) m = storeNext B dec m := by
  have more := can.more
  have gap := can.gap
  have long := part.length_le
  rw [List.length_drop] at long
  have source := headD_front part more
  have target := headD_front part (show dec.pos + dec.len < B.length by omega)
  have place : dec.pos + off + dec.len = dec.pos + dec.len + off := by omega
  refine ⟨⟨⟨can.msg, can.some, can.code, can.ctx, ?_, ?_⟩, can.data, ?_, ?_, ?_⟩, ?_⟩
  · simp only [raise]
    omega
  · simp only [raise]
    omega
  · simp only [raise]
    omega
  · simp only [raise]
    omega
  · simp only [raise, source]
    exact can.value
  · simp only [storeNext, raise, place, source, target]

theorem Ahead.raise {B : List Nat} {off : Nat} (part : B <+: A.drop off) {dec' : DecodeState}
    {m' : Mem Byte} (h : Ahead v B dec m dec' m') :
    Ahead v A (Cobs.raise off dec) m (Cobs.raise off dec') m' := by
  induction h with
  | refl dec m => exact .refl _ m
  | @step dec dec' m m' can _ ih =>
      obtain ⟨can', same⟩ := raise_can part can
      have next : forward (Cobs.raise off dec) = Cobs.raise off (forward dec) := by
        simp only [forward, Cobs.raise, blockCode, blockPos]
        congr 1
        omega
      refine .step can' ?_
      rw [next, same]
      exact ih

end Mpt.Cobs
