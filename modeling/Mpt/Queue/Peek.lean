import Mpt.Queue.Store
import Mpt.Queue.Deliver
import Mpt.Convert.Onward

/-! # Looking at a message before it is received

`mpt_queue_peek` lets the decoder work on the first part of the data and leaves the
message in progress with what it has decoded.  A block goes on where it was left,
so that it makes no difference to `mpt_queue_recv` how far it was decoded before.
-/

namespace Mpt

namespace Queue

/-- All data of the queue as a message. -/
def message (q : Queue) : Message :=
  if q.max - q.off < q.len then
    ⟨q.base + q.off, q.max - q.off, [⟨q.base, q.len - (q.max - q.off)⟩]⟩
  else
    ⟨q.base + q.off, q.len, []⟩

theorem message_bytes {q : Queue} (v : q.Valid) : q.message.bytes = q.ring := by
  have offLe := v.off_le
  rw [← vectorSet_bytes v]
  unfold message vectorSet
  by_cases wrapped : q.max < q.off + q.len
  · rw [if_pos (by omega), if_pos wrapped]
    simp [Cobs.sourceParts, Message.bytes]
  · rw [if_neg (by omega), if_neg wrapped]
    simp [Cobs.sourceParts, Message.bytes]

end Queue

namespace DecodeQueue

open Cobs
open Cobs.InPlace (view)

/-- The message behind its first bytes, where there are as many. -/
def skip (msg : Message) (off : Nat) : Option Message :=
  if off ≠ 0 ∧ (msg.read off).2.length < off then
    none
  else
    some (if off = 0 then msg else (msg.read off).1)

/-- `mpt_queue_peek` without a decoder: the data behind the last message. -/
def peekRaw (d : DecodeQueue) (max : Nat) (dst : Bool) : Except Error (Nat × List Byte) :=
  let off := d.state.pos + d.state.msg.getD 0
  if dst = false then
    if d.data.len < off then .error .missingData else .ok (d.data.len - off, [])
  else
    match skip d.data.message off with
    | none => .error .missingData
    | some msg =>
        let (_, addrs) := msg.read max
        .ok (addrs.length, addrs.map d.data.mem)

/-- `mpt_queue_peek`: the value returned and the bytes copied to the target, if there
    is one. -/
def peek (dec : Option Decoder) (d : DecodeQueue) (max : Nat) (dst : Bool) :
    DecodeQueue × Except Error (Nat × List Byte) :=
  if d.data.len = 0 then
    (d, .error .missingData)
  else
    match dec with
    | none => (d, peekRaw d max dst)
    | some dec =>
        -- work area reduces offset
        let off := min d.state.pos d.state.curr
        match skip d.data.message off with
        | none => (d, .error .missingData)
        | some msg =>
            let state := { d.state with pos := d.state.pos - off, curr := d.state.curr - off }
            match dec state d.data.mem (some [⟨msg.base, msg.used⟩]) 0 with
            | (state, mem, ret) =>
                -- restore offsets
                let d' : DecodeQueue := ⟨{ d.data with mem := mem }, raise off state⟩
                match ret with
                | .error _ => (d', .ok (state.len, []))
                | .ok _ =>
                    if dst then
                      let n := min state.len max
                      (d', .ok (n, mem.read (msg.base + state.pos) n))
                    else
                      (d', .ok (state.len, []))

/-- The bytes of a message in progress. -/
def begun (d : DecodeQueue) : List Byte := (d.data.content.drop d.state.pos).take d.state.len

variable {c : Codec} {d d' : DecodeQueue}

/-- More bytes of a block may be decoded. -/
def Further (c : Codec) (d d' : DecodeQueue) : Prop :=
  ∃ m', d'.data = { d.data with mem := m' } ∧
    Ahead c.variant d.data.ring d.state d.data.mem d'.state m'

theorem Further.refl (c : Codec) (d : DecodeQueue) : Further c d d :=
  ⟨d.data.mem, rfl, .refl _ _⟩

theorem Further.trans {d₁ d₂ d₃ : DecodeQueue} (h : Further c d₁ d₂) (h' : Further c d₂ d₃) :
    Further c d₁ d₃ := by
  obtain ⟨data₂, state₂⟩ := d₂
  obtain ⟨data₃, state₃⟩ := d₃
  obtain ⟨m₂, rfl, ahead⟩ := h
  obtain ⟨m₃, rfl, ahead'⟩ := h'
  exact ⟨m₃, rfl, ahead.trans ahead'⟩

theorem skip_bytes {msg msg' : Message} {off : Nat} (eq : skip msg off = some msg') :
    msg'.bytes = msg.bytes.drop off := by
  unfold skip at eq
  split at eq
  · cases eq
  · obtain rfl := Option.some.inj eq
    split
    · next zero => rw [zero, List.drop_zero]
    · exact (msg.read_spec off).2.1

/-- What lies at the start of the part that was decoded is the message in progress. -/
theorem read_begun {q : Queue} {base used off : Nat} {dec : DecodeState} {m : Mem Byte}
    (front : addresses base used <+: q.ring.drop off) (order : dec.pos + dec.len ≤ dec.curr)
    (inside : dec.curr ≤ (addresses base used).length) (max : Nat) :
    m.read (base + dec.pos) (min dec.len max) <+: begun ⟨{ q with mem := m }, raise off dec⟩ := by
  rw [length_addresses] at inside
  have content : ({ q with mem := m } : Queue).content = q.ring.map m := by
    rw [← Queue.map_ring]
    rfl
  have part : addresses (base + dec.pos) (min dec.len max) <+:
      (q.ring.drop (dec.pos + off)).take dec.len := by
    obtain ⟨rest, eq⟩ := front
    have split : used = dec.pos + (min dec.len max + (used - dec.pos - min dec.len max)) := by omega
    rw [split, addresses_add, addresses_add] at eq
    have behind : q.ring.drop (dec.pos + off) = addresses (base + dec.pos) (min dec.len max) ++
        (addresses (base + dec.pos + min dec.len max) (used - dec.pos - min dec.len max) ++
          rest) := by
      rw [Nat.add_comm, ← List.drop_drop, ← eq]
      simp
    have all : (addresses (base + dec.pos) (min dec.len max)).take dec.len =
        addresses (base + dec.pos) (min dec.len max) :=
      List.take_of_length_le (by rw [length_addresses]; exact Nat.min_le_left _ _)
    rw [behind, List.take_append, all]
    exact List.prefix_append _ _
  unfold begun
  simp only [raise, content]
  rw [← List.map_drop, ← List.map_take, ← map_addresses]
  exact part.map m

/-- Peeking decodes more of the block, and what is copied is the start of the message in
    progress. -/
theorem peek_further (v : d.data.Valid) (settled : Settled d.state) (max : Nat) (dst : Bool) :
    Further c d (d.peek (some c.decoder) max dst).1 ∧
      ∀ n out, (d.peek (some c.decoder) max dst).2 = .ok (n, out) →
        out = [] ∨ (d.peek (some c.decoder) max dst).1.state.msg = none ∧
          (d.peek (some c.decoder) max dst).1.state.len ≠ 0 ∧
            out <+: (d.peek (some c.decoder) max dst).1.begun := by
  unfold peek
  by_cases empty : d.data.len = 0
  · rw [if_pos empty]
    exact ⟨.refl c d, fun _ _ ok => by cases ok⟩
  rw [if_neg empty]
  simp only
  cases rest : skip d.data.message (min d.state.pos d.state.curr) with
  | none => exact ⟨.refl c d, fun _ _ ok => by cases ok⟩
  | some msg =>
      have bytes := skip_bytes rest
      rw [Queue.message_bytes v] at bytes
      have source : view [⟨msg.base, msg.used⟩] 0 = addresses msg.base msg.used := by
        simp [view, sourceParts, Message.bytes]
      have front : addresses msg.base msg.used <+:
          d.data.ring.drop (min d.state.pos d.state.curr) := by
        rw [← bytes]
        exact List.prefix_append _ _
      have reduced : Settled { d.state with
          pos := d.state.pos - min d.state.pos d.state.curr
          curr := d.state.curr - min d.state.pos d.state.curr } :=
        ⟨settled.ctx, settled.msg, settled.code⟩
      obtain ⟨dec', m', ret, run, ahead, inside⟩ :=
        decoder_first (c := c) (m := d.data.mem) [⟨msg.base, msg.used⟩] reduced
      rw [source] at ahead inside
      have restored : raise (min d.state.pos d.state.curr) { d.state with
          pos := d.state.pos - min d.state.pos d.state.curr
          curr := d.state.curr - min d.state.pos d.state.curr } = d.state := by
        simp only [raise, Nat.sub_add_cancel (Nat.min_le_left _ _),
          Nat.sub_add_cancel (Nat.min_le_right _ _)]
      have whole := ahead.raise front
      rw [restored] at whole
      simp only [run]
      cases ret with
      | error e => exact ⟨⟨m', rfl, whole⟩, fun n out ok => by cases ok; exact .inl rfl⟩
      | ok k =>
          obtain ⟨busy, pos⟩ := inside k rfl
          cases dst with
          | false => exact ⟨⟨m', rfl, whole⟩, fun n out ok => by cases ok; exact .inl rfl⟩
          | true =>
              refine ⟨⟨m', rfl, whole⟩, ?_⟩
              intro n out ok
              cases ok
              exact .inr ⟨busy.msg, busy.some, read_begun front busy.order busy.inside max⟩

/-- Bytes decoded ahead are so after more is stored behind the source. -/
theorem ahead_grow {v : Variant} {A B : List Nat} {W : Mem Byte → Mem Byte} (mask : Mask W)
    (same : ∀ a ∈ A, ∀ m, W m a = m a) {dec dec' : DecodeState} {m m' : Mem Byte}
    (h : Ahead v A dec m dec' m') : Ahead v (A ++ B) dec (W m) dec' (W m') := by
  induction h with
  | refl dec m => exact .refl dec (W m)
  | @step dec dec' m m' can _ ih =>
      have more := can.more
      have gap := can.gap
      have cell : ∀ i, i < A.length → ((A ++ B).drop i).headD 0 = (A.drop i).headD 0 ∧
          (A.drop i).headD 0 ∈ A := by
        intro i inside
        rw [List.drop_append_of_le_length (Nat.le_of_lt inside), List.drop_eq_getElem_cons inside]
        exact ⟨rfl, List.getElem_mem inside⟩
      obtain ⟨source, inA⟩ := cell dec.curr more
      obtain ⟨target, inA'⟩ := cell (dec.pos + dec.len) (by omega)
      have next : storeNext (A ++ B) dec (W m) = W (storeNext A dec m) := by
        unfold storeNext
        rw [source, target, same _ inA, ← mask.set (same _ inA')]
      refine .step ⟨⟨can.msg, can.some, can.code, can.ctx, can.order, ?_⟩, can.data, gap, ?_, ?_⟩ ?_
      · rw [List.length_append]
        omega
      · rw [List.length_append]
        omega
      · rw [source, same _ inA]
        exact can.value
      · rw [next]
        exact ih

theorem Further.recv (h : Further c d d') (v : d.data.Valid) :
    d'.recv (some c.decoder) = d.recv (some c.decoder) := by
  obtain ⟨data', state'⟩ := d'
  obtain ⟨m', rfl, ahead⟩ := h
  have same : c.decoder state' m' (some d.data.vectorSet) d.data.vectorSet.length =
      c.decoder d.state d.data.mem (some d.data.vectorSet) d.data.vectorSet.length := by
    refine decoder_ahead ?_
    unfold view
    rw [Queue.vectorSet_bytes v]
    exact ahead
  have parts : ({ d.data with mem := m' } : Queue).vectorSet = d.data.vectorSet := rfl
  by_cases empty : d.data.len = 0
  · have nothing : d.data.ring = [] := List.eq_nil_of_length_eq_zero (by simpa using empty)
    rw [nothing] at ahead
    cases ahead with
    | refl => rfl
    | step can _ => exact absurd can.more (Nat.not_lt_zero _)
  · unfold DecodeQueue.recv
    rw [if_neg empty, if_neg empty]
    simp only [parts, same]

/-- An append to both queues. -/
theorem Further.push (h : Further c d d') (v : d.data.Valid) (src : Data) (some : 0 < src.len) :
    (d'.data.push src).2 = (d.data.push src).2 ∧
      Further c ⟨(d.data.push src).1, d.state⟩ ⟨(d'.data.push src).1, d'.state⟩ := by
  obtain ⟨data', state'⟩ := d'
  obtain ⟨m', rfl, ahead⟩ := h
  obtain ⟨W, k, ret, mask, same, _, push⟩ := Queue.push_kept v src some
  have first : d.data.push src = _ := push d.data.mem
  simp only
  rw [push m', first]
  refine ⟨rfl, W m', rfl, ?_⟩
  simp only [Queue.ring_grow]
  exact ahead_grow mask same ahead

/-- What every step keeps. -/
structure Sane (d : DecodeQueue) : Prop where
  valid : d.data.Valid
  settled : Settled d.state

theorem shift_sane (sane : Sane d) : Sane d.shift := by
  unfold shift
  split
  · exact sane
  split
  · exact sane
  rcases d.data.crop_front (spent d.state) with ⟨fits, ret, eq⟩ | ⟨_, eq⟩
  · rw [eq]
    exact ⟨Queue.dropFront_valid sane.valid fits,
      ⟨sane.settled.ctx, sane.settled.msg, sane.settled.code⟩⟩
  · rw [eq]
    exact sane

/-- How a call of the decoder ends `mpt_queue_recv`. -/
def given (q : Queue) (r : DecodeState × Mem Byte × Except Error Nat) :
    DecodeQueue × Except Error Nat :=
  match r with
  | (state, mem, .ok _) => answer ⟨{ q with mem := mem }, state⟩
  | (state, mem, .error e) => (⟨{ q with mem := mem }, state⟩, .error e)

/-- The decoder gets the queue as it is, and where it runs out of free space once more
    with all there is in front of the content. -/
theorem recv_cases (v : d.data.Valid) (some : d.data.len ≠ 0)
    {r : DecodeState × Mem Byte × Except Error Nat}
    (call : c.decoder d.state d.data.mem (Option.some d.data.vectorSet) d.data.vectorSet.length =
      r) :
    d.recv (Option.some c.decoder) = given d.data r ∨
      r.2.2 = .error .missingBuffer ∧ ∃ (q : Queue) (room : Nat), q.Valid ∧ q.mem = r.2.1 ∧
        q.ring.drop room = d.data.ring ∧
        d.recv (Option.some c.decoder) = given q
          (c.decoder (raise room r.1) q.mem (Option.some q.vectorSet) q.vectorSet.length) := by
  obtain ⟨state, mem, ret⟩ := r
  unfold recv
  rw [if_neg some]
  simp only [call]
  cases ret with
  | ok k => exact .inl rfl
  | error e =>
      cases e with
      | missingBuffer =>
          simp only
          by_cases full : d.data.max ≤ d.data.len
          · rw [if_pos full]
            exact .inl rfl
          rw [if_neg full]
          have v' : ({ d.data with mem := mem } : Queue).Valid := ⟨v.off_le, v.len_le⟩
          obtain ⟨off, left, eq, offLe, place⟩ :=
            Queue.pre_fits v' (Nat.lt_of_not_le full) (0, 0) (Nat.le_refl _)
          have ring := Queue.pre_ring (q := { d.data with mem := mem }) place
          simp only at eq
          rw [eq]
          let grown : Queue :=
            ⟨mem, d.data.base, d.data.len + (d.data.max - d.data.len), d.data.max, off⟩
          have v'' : grown.Valid := ⟨offLe, by simp only [grown]; omega⟩
          refine .inr ⟨trivial, grown, d.data.max - d.data.len, v'', rfl, ring, ?_⟩
          rcases again : c.decoder (raise (d.data.max - d.data.len) state) grown.mem
            (Option.some grown.vectorSet) grown.vectorSet.length with ⟨state', mem', ret'⟩
          simp only [raise, grown] at again
          simp only [again]
          cases ret' with
          | ok k => rfl
          | error e => rfl
      | _ => exact .inl rfl

theorem given_sane {q : Queue} (v : q.Valid) {r : DecodeState × Mem Byte × Except Error Nat}
    (settled : Settled r.1) : Sane (given q r).1 := by
  obtain ⟨state, mem, ret⟩ := r
  have kept : Sane ⟨{ q with mem := mem }, state⟩ := ⟨⟨v.off_le, v.len_le⟩, settled⟩
  cases ret with
  | ok k => exact shift_sane kept
  | error e => exact kept

theorem recv_sane (sane : Sane d) : Sane (d.recv (some c.decoder)).1 := by
  by_cases empty : d.data.len = 0
  · unfold recv
    rw [if_pos empty]
    exact sane
  have settled := decoder_settled (c := c) (m := d.data.mem) d.data.vectorSet
    d.data.vectorSet.length sane.settled
  rcases recv_cases sane.valid empty rfl with eq | ⟨_, q, room, v, _, _, eq⟩
  · rw [eq]
    exact given_sane sane.valid settled
  · rw [eq]
    have raised : Settled (raise room _) := ⟨settled.ctx, settled.msg, settled.code⟩
    exact given_sane v (decoder_settled _ _ raised)

end DecodeQueue

end Mpt
