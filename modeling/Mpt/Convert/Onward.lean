import Mpt.Convert.Ahead

/-! # Going on with a message

What every call of a decoder keeps: the code of the block it is in is a byte, and a
message in progress stays where it is and only grows.
-/

namespace Mpt.Cobs

open InPlace (view)

variable {v : Variant} {A : List Nat} {m : Mem Byte} {dec : DecodeState}

/-! ## The state after any call -/

theorem loop_code (one : Bool) (dst src : List Nat) (mlen proc : Nat) {code pos : Nat}
    (byte : code < 0x100) (small : pos < 0x100) :
    (decodeLoop v one m dst mlen proc code pos src).code < 0x100 ∧
      (decodeLoop v one m dst mlen proc code pos src).pos < 0x100 ∧
      ((decodeLoop v one m dst mlen proc code pos src).stop ≠ .done →
        (decodeLoop v one m dst mlen proc code pos src).code ≠ 0) := by
  induction src generalizing m dst mlen proc code pos with
  | nil =>
      unfold decodeLoop
      split
      · exact ⟨byte, small, fun other => absurd rfl other⟩
      · next some => exact ⟨byte, small, fun _ => some⟩
  | cons s src ih =>
      unfold decodeLoop
      by_cases zero : code = 0
      · rw [if_pos zero]
        exact ⟨byte, small, fun other => absurd rfl other⟩
      rw [if_neg zero]
      have low := lenData_lt v byte
      by_cases data : pos < lenData v code
      · rw [if_pos data]
        split
        · exact ⟨byte, small, fun _ => zero⟩
        · split
          · exact ⟨byte, small, fun _ => zero⟩
          · exact ih _ _ _ byte (by omega)
      · rw [if_neg data]
        cases one with
        | true => exact ⟨byte, small, fun _ => zero⟩
        | false =>
            simp only [Bool.false_eq_true, if_false]
            split
            · next less =>
                have more := behind_lt v byte (m s).toNat
                exact ⟨byte, by simp only; omega, fun _ => zero⟩
            · exact ih _ _ _ (m s).toNat_lt (by decide)

theorem cobsState_settled {code pos len : Nat} {curr start : Nat} (byte : code < 0x100)
    (small : pos < 0x100) (some : code ≠ 0) :
    Settled ⟨cobsState code pos, curr, start, len, none⟩ where
  ctx := by
    simp only [cobsState]
    omega
  msg := .inl rfl
  code := by
    intro zero
    simp only [blockCode, cobsState] at zero
    omega

theorem decodeBlocks_settled {one : Bool} {dst src : Message} {done mlen proc code pos : Nat}
    (msg : dec.msg = none) (byte : code < 0x100) (small : pos < 0x100) :
    Settled (decodeBlocks v dec m one dst src done mlen proc code pos).1 := by
  obtain ⟨byte', small', some⟩ := loop_code (v := v) (m := m) one dst.bytes src.bytes mlen proc
    byte small
  unfold decodeBlocks
  generalize decodeLoop v one m dst.bytes mlen proc code pos src.bytes = R at byte' small' some
  obtain ⟨mem, mlen', proc', code', pos', stop⟩ := R
  simp only at byte' small' some ⊢
  rw [msg]
  cases stop with
  | done => exact ⟨(by decide : 0 < 0x10000), .inr rfl, fun _ => .inr nofun⟩
  | more => exact cobsState_settled byte' small' (some nofun)
  | missingData => exact cobsState_settled byte' small' (some nofun)
  | missingBuffer => exact cobsState_settled byte' small' (some nofun)

theorem decodeFrom_settled {one : Bool} {tmp : Message} {done mlen proc : Nat}
    (settled : Settled dec) (msg : dec.msg = none) :
    Settled (decodeFrom v dec m one tmp done mlen proc).1 := by
  have small : dec.ctx % 0x10000 / 0x100 < 0x100 := by omega
  unfold decodeFrom
  generalize tmp.read proc = first
  obtain ⟨msg', free⟩ := first
  simp only
  split
  · exact settled
  split
  · generalize msg'.read 1 = second
    obtain ⟨msg'', addrs⟩ := second
    cases addrs with
    | nil => exact settled
    | cons s rest =>
        simp only
        split
        · exact ⟨settled.ctx, settled.msg, settled.code⟩
        · exact decodeBlocks_settled msg (m s).toNat_lt small
  · exact decodeBlocks_settled msg (Nat.mod_lt _ (by decide)) small

/-- A settled state after the message reported is consumed. -/
theorem Settled.consume (settled : Settled dec) (pos : Nat) :
    Settled { dec with len := dec.len - dec.msg.getD 0, msg := none, pos := pos } where
  ctx := settled.ctx
  msg := .inl rfl
  code := by
    intro zero
    rcases settled.msg with none | some
    · left
      rcases settled.code zero with empty | busy
      · simp [empty]
      · exact absurd none busy
    · simp [some]

theorem decode_settled (source : List Iovec) (n : Nat) (settled : Settled dec) :
    Settled (decode v dec m (.some source) n).1 := by
  unfold decode
  simp only
  generalize (sourceParts source n).read (dec.pos + dec.len) = first
  obtain ⟨tmp, used⟩ := first
  simp only
  split
  · exact settled
  split
  · exact settled
  split
  · split
    · exact settled.consume dec.pos
    · exact decodeFrom_settled (settled.consume _) rfl
  · exact decodeFrom_settled (settled.consume dec.pos) rfl

theorem decoder_settled {c : Codec} (source : List Iovec) (n : Nat) (settled : Settled dec) :
    Settled (c.decoder dec m (.some source) n).1 := by
  have kept := decode_settled (v := c.variant) (m := m) source n settled
  unfold Codec.decoder
  cases c.tail with
  | false => exact kept
  | true =>
      simp only [if_true, decodeR]
      generalize decode c.variant dec m (.some source) n = r at kept
      obtain ⟨dec', m', ret⟩ := r
      split
      · next eq =>
          cases eq
          split
          · exact kept
          · split
            · exact kept
            · exact ⟨(by decide : 0 < 0x10000), .inr rfl, fun _ => .inr fun none => by cases none⟩
      · exact kept

/-! ## A call with a message in progress -/

/-- A call on a message in progress goes on with it or reports it. -/
structure Onward (A : List Nat) (m : Mem Byte) (dec : DecodeState)
    (r : DecodeState × Mem Byte × Except Error Nat) : Prop where
  pos : r.1.pos = dec.pos
  len : dec.len ≤ r.1.len
  mem : ∃ high, Mem.Only (InPlace.Within A (dec.pos + dec.len) high) m r.2.1
  msg : r.1.msg = none ∨ r.1.msg = some r.1.len ∧ ∃ k, r.2.2 = .ok k

theorem Onward.stay (busy : dec.msg = none) (ret : Except Error Nat) :
    Onward A m dec (dec, m, ret) :=
  ⟨rfl, Nat.le_refl _, ⟨0, Mem.only_refl _ m⟩, .inl busy⟩

theorem decode_onward (source : List Iovec) (n : Nat) (settled : Settled dec)
    (busy : dec.msg = none) (some : dec.len ≠ 0) :
    Onward (view source n) m dec (decode v dec m (.some source) n) := by
  by_cases fits : dec.pos + dec.len ≤ dec.curr ∧ dec.curr ≤ (view source n).length
  · have inside : Midway (view source n) dec :=
      ⟨busy, some, fun zero => (settled.code zero).elim some fun other => other busy,
        settled.ctx, fits.1, fits.2⟩
    obtain ⟨dst, src, front, unread, eq⟩ := decode_inside (v := v) (m := m) inside
    obtain ⟨k, stop, moved⟩ := InPlace.decodeLoop_moved (v := v) (m := m) (decide (n = 0))
      (Nat.add_sub_of_le fits.1) fits.2 dec.len (blockCode dec) (blockPos dec)
    have count := moved.count
    have mem := moved.mem
    rw [eq]
    unfold decodeBlocks
    rw [front, unread]
    generalize decodeLoop v (decide (n = 0)) m _ dec.len _ _ _ _ = R at count mem
    obtain ⟨mem', mlen', proc', code', pos', stop'⟩ := R
    simp only at count mem ⊢
    have longer : dec.len ≤ mlen' := by omega
    cases stop' with
    | done => exact ⟨rfl, longer, ⟨_, mem⟩, .inr ⟨rfl, _, rfl⟩⟩
    | more => exact ⟨rfl, longer, ⟨_, mem⟩, .inl busy⟩
    | missingData => exact ⟨rfl, longer, ⟨_, mem⟩, .inl busy⟩
    | missingBuffer => exact ⟨rfl, longer, ⟨_, mem⟩, .inl busy⟩
  · rw [decode_short busy some fits]
    exact .stay busy _

theorem decoder_onward {c : Codec} (source : List Iovec) (n : Nat) (settled : Settled dec)
    (busy : dec.msg = none) (some : dec.len ≠ 0) :
    Onward (view source n) m dec (c.decoder dec m (.some source) n) := by
  have onward := decode_onward (v := c.variant) (m := m) source n settled busy some
  unfold Codec.decoder
  cases c.tail with
  | false => exact onward
  | true =>
      simp only [if_true, decodeR]
      generalize decode c.variant dec m (.some source) n = r at onward
      obtain ⟨dec', m', ret⟩ := r
      split
      · next eq =>
          cases eq
          obtain ⟨pos, len, ⟨high, mem⟩, msg⟩ := onward
          have open' : dec'.msg = none := msg.resolve_right fun settled => by
            obtain ⟨_, _, ok⟩ := settled
            cases ok
          simp only at pos len mem
          split
          · exact ⟨pos, len, ⟨high, mem⟩, .inl open'⟩
          split
          · exact ⟨pos, len, ⟨high, mem⟩, .inl open'⟩
          · next room =>
              have head := InPlace.tail_place room
              refine ⟨pos, Nat.le_succ_of_le len, ⟨max high (dec'.pos + dec'.len + 1), ?_⟩,
                .inr ⟨rfl, _, rfl⟩⟩
              apply Mem.Only.trans
              · exact mem.mono fun a within => within.mono (Nat.le_refl _) (Nat.le_max_left _ _)
              · refine Mem.only_set _ ⟨dec'.pos + dec'.len, by omega, ?_, head⟩ _
                exact Nat.lt_of_lt_of_le (Nat.lt_succ_self _) (Nat.le_max_right _ _)
      · exact onward

theorem started_kept {m' : Mem Byte} (nodup : A.Nodup) {pos len len' high : Nat}
    (only : Mem.Only (InPlace.Within A (pos + len) high) m m') (le : len ≤ len') :
    ((A.map m).drop pos).take len <+: ((A.map m').drop pos).take len' := by
  have same : ((A.map m).drop pos).take len = ((A.map m').drop pos).take len := by
    apply List.ext_getElem
    · simp
    · intro i hi hi'
      simp only [List.length_take, List.length_drop, List.length_map] at hi
      simp only [List.getElem_take, List.getElem_drop, List.getElem_map]
      refine (only _ ?_).symm
      rintro ⟨j, low, _, at_⟩
      obtain ⟨inside, eq⟩ := List.getElem?_eq_some_iff.mp at_
      have place := nodup.getElem_inj_iff.mp eq
      omega
  have part : (((A.map m').drop pos).take len').take len = ((A.map m').drop pos).take len := by
    rw [List.take_take, Nat.min_eq_left le]
  rw [same, ← part]
  exact List.take_prefix _ _

theorem Midway.settled (inside : Midway A dec) : Settled dec :=
  ⟨inside.ctx, .inl inside.msg, fun zero => absurd zero inside.code⟩

theorem Ahead.settled {dec' : DecodeState} {m' : Mem Byte} (h : Ahead v A dec m dec' m')
    (settled : Settled dec) : Settled dec' := by
  induction h with
  | refl => exact settled
  | step can _ ih => exact ih (forward_inside can).settled

/-- So do the bytes of a block that are decoded ahead. -/
theorem Ahead.onward {dec' : DecodeState} {m' : Mem Byte} (h : Ahead v A dec m dec' m')
    (busy : dec.msg = none) (ret : Except Error Nat) : Onward A m dec (dec', m', ret) := by
  induction h with
  | refl => exact .stay busy ret
  | @step dec dec' m m' can _ ih =>
      obtain ⟨pos, len, ⟨high, mem⟩, msg⟩ := ih busy
      have gap := can.gap
      have more := can.more
      refine ⟨pos, Nat.le_of_succ_le len, ⟨max high (dec.pos + dec.len + 1), ?_⟩, msg⟩
      have first : Mem.Only (InPlace.Within A (dec.pos + dec.len) (dec.pos + dec.len + 1)) m
          (storeNext A dec m) :=
        InPlace.only_set_within m (by omega) (Nat.lt_succ_self _) _
      apply Mem.Only.trans
      · exact first.mono fun a within => within.mono (Nat.le_refl _) (Nat.le_max_right _ _)
      · exact mem.mono fun a within => within.mono (Nat.le_succ _) (Nat.le_max_left _ _)

end Mpt.Cobs
