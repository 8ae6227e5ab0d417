import Mpt.Queue.Recv
import Mpt.Convert.Delivery
import Mpt.Run

/-! # Messages from a decode queue

A session appends pieces of an encoded stream to a decode queue and receives from
it, in any order.  The messages received are those of the stream, as long as no
call of the decoder runs out of free space: neither the bytes that
`mpt_queue_shift` keeps nor the prefix that `mpt_queue_recv` makes can give it
any.
-/

namespace Mpt.DecodeQueue

open Cobs

/-- The bytes of the message that the last call reported. -/
def reported (d : DecodeQueue) : List Byte :=
  (d.data.content.drop d.state.pos).take (d.state.msg.getD 0)

inductive Op where
  /-- append the next `n + 1` bytes of the stream, or all that are left -/
  | append (n : Nat)
  | recv
  deriving Repr, DecidableEq

/-- The queue, the bytes of the stream that are still to be appended, and the
    messages received. -/
structure Session where
  queue : DecodeQueue
  future : List Byte
  delivered : List (List Byte)

/-- The stream of the frames before an empty queue. -/
def Session.start (c : Codec) (q : Queue) (fs : List Frame) : Session :=
  ⟨⟨q, .init⟩, stream c.variant fs, []⟩

def step (c : Codec) (s : Session) : Op → Session × Option (Except Error Nat)
  | .append n =>
      if s.future = [] then
        (s, none)
      else
        match s.queue.data.push (.bytes (s.future.take (n + 1))) with
        | (q, .error e) => (⟨⟨q, s.queue.state⟩, s.future, s.delivered⟩, some (.error e))
        | (q, .ok ret) =>
            (⟨⟨q, s.queue.state⟩, s.future.drop (n + 1), s.delivered⟩, some (.ok ret))
  | .recv =>
      let (d, ret) := s.queue.recv (some c.decoder)
      let delivered := match ret with
        | .ok 1 => s.delivered ++ [d.reported]
        | _ => s.delivered
      (⟨d, s.future, delivered⟩, some ret)

def machine (c : Codec) : Machine Session Op (Option (Except Error Nat)) where
  step := step c

/-- The unread bytes of the queue. -/
def rest (d : DecodeQueue) : List Byte := d.data.content.drop d.state.curr

/-- The free space that the decoder finds between decoded and unread bytes. -/
def gap (d : DecodeQueue) : Nat := gapAt d.state d.data.vectorSet d.data.vectorSet.length

/-- A call of `mpt_queue_recv` gets on where the decoder has the free space that the
    unread bytes need. -/
def Clean (c : Codec) (s : Session) : Op → Prop
  | .append _ => True
  | .recv => needAt c.variant s.queue.state.ctx s.queue.rest ≤ s.queue.gap

instance (c : Codec) (s : Session) (op : Op) : Decidable (Clean c s op) :=
  match op with
  | .append _ => inferInstanceAs (Decidable True)
  | .recv => inferInstanceAs (Decidable (_ ≤ _))

variable {c : Codec} {d : DecodeQueue} {future : List Byte} {fs : List Frame}

theorem unread_ring (d : DecodeQueue) : unread d.state d.data.mem d.data.ring = d.rest := by
  rw [unread, List.map_drop, Queue.map_ring, rest]

/-- What `mpt_queue_shift` keeps. -/
structure Shifted (c : Codec) (d d' : DecodeQueue) (future : List Byte) (fs : List Frame) :
    Prop where
  valid : d'.data.Valid
  tracks : Tracks c d'.state d'.data.mem d'.data.ring future fs
  msg : d'.state.msg = d.state.msg
  reported : d'.reported = d.reported

theorem shift_tracks (v : d.data.Valid)
    (t : Tracks c d.state d.data.mem d.data.ring future fs) :
    Shifted c d d.shift future fs := by
  have order := t.ready.order
  have inside := t.ready.inside
  rw [Queue.length_ring] at inside
  have same : Shifted c d d future fs := ⟨v, t, rfl, rfl⟩
  unfold shift
  by_cases start : d.state.curr = 0
  · rw [if_pos start]
    exact same
  rw [if_neg start]
  by_cases nothing : spent d.state = 0
  · rw [if_pos nothing]
    exact same
  rw [if_neg nothing]
  have le : spent d.state ≤ d.state.curr := by
    unfold spent
    split <;> omega
  have kept : spent d.state ≤ d.state.pos ∧ keptPos d.state = d.state.pos - spent d.state ∨
      d.state.len = 0 ∧ keptPos d.state = 0 ∧ d.state.pos = 0 := by
    unfold spent keptPos
    by_cases used : d.state.pos ≠ 0 ∨ d.state.len ≠ 0
    · by_cases before : d.state.pos < d.state.curr
      · simp [used, before]
      · simp only [used, before, and_false, if_false, if_true]
        exact .inl ⟨Nat.le_of_not_lt before, trivial⟩
    · simp only [used, false_and, if_false]
      omega
  rcases d.data.crop_front (spent d.state) with ⟨fits, ret, eq⟩ | ⟨excess, _⟩
  · rw [eq]
    have drop := t.drop le (kept.imp id fun h => ⟨h.1, by rw [h.2.1]; exact Nat.zero_le _⟩)
    rw [← Queue.ring_dropFront v] at drop
    refine ⟨Queue.dropFront_valid v fits, drop, rfl, ?_⟩
    simp only [reported, Queue.content_dropFront v, List.drop_drop]
    rcases kept with ⟨before, eq⟩ | ⟨empty, _, _⟩
    · rw [eq, Nat.add_sub_cancel' before]
    · have zero : d.state.msg.getD 0 = 0 := by
        rcases t.ready.msg with h | h <;> simp [h, empty]
      rw [zero, List.take_zero, List.take_zero]
  · omega

/-- The first `n` messages are delivered and the queue tracks the rest. -/
structure Sound (c : Codec) (fs : List Frame) (n : Nat) (s : Session) : Prop where
  count : n ≤ fs.length
  delivered : s.delivered = (fs.take n).map Frame.message
  valid : s.queue.data.Valid
  tracks : Tracks c s.queue.state s.queue.data.mem s.queue.data.ring s.future (fs.drop n)

variable {n : Nat} {s : Session}

theorem sound_start {q : Queue} (v : q.Valid) (empty : q.len = 0) :
    Sound c fs 0 (.start c q fs) where
  count := Nat.zero_le _
  delivered := rfl
  valid := v
  tracks := by
    refine ⟨⟨Nat.le_refl _, Nat.zero_le _, .inl rfl⟩, fun _ => rfl, ?_⟩
    have nothing : unread (Session.start c q fs).queue.state q.mem q.ring = [] := by
      have size : q.ring = [] := List.eq_nil_of_length_eq_zero (by simp [empty])
      simp [unread, size]
    have all : unread (Session.start c q fs).queue.state q.mem q.ring ++
        (Session.start c q fs).future = stream c.variant fs := by
      rw [nothing]
      rfl
    have pending := Pending.between (c := c) fs
    rw [← all] at pending
    exact pending

/-- More of the stream is appended, or all that fits is there. -/
theorem sound_append (h : Sound c fs n s) (k : Nat) : Sound c fs n (step c s (.append k)).1 := by
  simp only [step]
  by_cases all : s.future = []
  · rw [if_pos all]
    exact h
  rw [if_neg all]
  have some : 0 < (Data.bytes (s.future.take (k + 1))).len := by
    simp only [Data.len, List.length_take]
    have := List.length_pos_iff.mpr all
    omega
  rcases Queue.push_spec h.valid _ some with ⟨fits, m, ret, eq, cells⟩ | ⟨_, eq⟩
  · rw [eq]
    refine ⟨h.count, h.delivered, ⟨h.valid.off_le, fits⟩, ?_⟩
    simp only
    rw [← Queue.map_ring, ← Queue.map_ring, Queue.ring_grow, List.map_append] at cells
    rw [Queue.ring_grow]
    obtain ⟨before, behind⟩ := List.append_inj cells (by simp)
    have tracks := h.tracks.congr before
    rw [← List.take_append_drop (k + 1) s.future] at tracks
    refine Tracks.grow ?_
    simp only at behind
    rw [behind]
    exact tracks
  · rw [eq]
    exact h

/-- The last byte of the next frame is in the queue. -/
def Complete (c : Codec) (fs : List Frame) (n : Nat) (s : Session) : Prop :=
  n < fs.length ∧ s.future.length ≤ (stream c.variant (fs.drop (n + 1))).length

/-- The first unread frame is waited for, or there is none. -/
theorem waiting {data : Queue} {state : DecodeState} {delivered : List (List Byte)}
    (unseen : ∀ f fs', fs.drop n = f :: fs' → (stream c.variant fs').length < future.length) :
    ¬ Complete c fs n ⟨⟨data, state⟩, future, delivered⟩ := by
  rintro ⟨more, seen⟩
  have lt := unseen fs[n] (fs.drop (n + 1)) (List.drop_eq_getElem_cons more)
  simp only at seen
  omega

/-- A call that gets on delivers the next message exactly when it is complete. -/
theorem sound_recv (ok : ∀ f ∈ fs, f.Ok c) (h : Sound c fs n s) (clean : Clean c s .recv) :
    (Complete c fs n s ∧ (step c s .recv).2 = some (.ok 1) ∧
        Sound c fs (n + 1) (step c s .recv).1) ∨
      (¬ Complete c fs n s ∧ (step c s .recv).2 ≠ some (.ok 1) ∧
        Sound c fs n (step c s .recv).1) := by
  obtain ⟨⟨data, state⟩, future, delivered⟩ := s
  obtain ⟨count, sofar, valid, tracks⟩ := h
  simp only at sofar valid tracks
  by_cases empty : data.len = 0
  · refine .inr ⟨waiting fun f fs' next => ?_, ?_, ?_⟩
    · rw [next] at tracks
      have lt := tracks.pending.rest_lt
      have none : data.ring = [] := List.eq_nil_of_length_eq_zero (by simpa using empty)
      simpa [unread, none] using lt
    · simp [step, recv, empty]
    · simp only [step, recv, empty, if_true]
      exact ⟨count, sofar, valid, tracks⟩
  obtain ⟨dec', m', ret, call, outside, outcome⟩ :=
    decoder_outcome (fun f mem => ok f (List.mem_of_mem_drop mem)) (Queue.ring_nodup valid) tracks
      data.vectorSet_some (Queue.vectorSet_bytes valid)
  have enough : needAt c.variant state.ctx (unread state data.mem data.ring) ≤
      gapAt state data.vectorSet data.vectorSet.length := by
    rw [unread_ring ⟨data, state⟩]
    exact clean
  let d' : DecodeQueue := ⟨{ data with mem := m' }, dec'⟩
  have valid' : d'.data.Valid := ⟨valid.off_le, valid.len_le⟩
  have settled := outcome.settled enough
  simp only [step, recv, empty, if_false, call]
  rcases settled with ⟨rfl, f, fs', next, tracks', isSome, message, seen⟩ |
      ⟨rfl, tracks', isNone, _, unseen⟩
  · have more : n < fs.length := by
      by_contra none
      rw [List.drop_of_length_le (by omega)] at next
      cases next
    have rest : fs.drop (n + 1) = fs' := by
      rw [← List.drop_drop, next]
      rfl
    have head : fs.take (n + 1) = fs.take n ++ [f] := by
      have : fs[n]? = some f := by rw [← List.head?_drop, next]; rfl
      rw [List.take_add_one, this]
      rfl
    obtain ⟨valid'', tracks'', _, same⟩ := shift_tracks (d := d') valid' tracks'
    have report : d'.reported = f.message := by
      rw [reported, ← Queue.map_ring, ← List.map_drop, ← List.map_take, isSome]
      exact message
    simp only [answer, isSome, reduceCtorEq, if_false]
    refine .inl ⟨⟨more, by rw [rest]; exact seen⟩, trivial, more, ?_, valid'', ?_⟩
    · simp only [head, List.map_append, List.map_cons, List.map_nil, ← sofar, ← report, ← same]
      rfl
    · rw [rest]
      exact tracks''
  · obtain ⟨valid'', tracks'', _⟩ := shift_tracks (d := d') valid' tracks'
    simp only [answer, isNone, if_true]
    refine .inr ⟨waiting unseen, by simp, count, sofar, valid'', tracks''⟩

/-- The invariant holds along clean runs. -/
theorem sound_after (ok : ∀ f ∈ fs, f.Ok c) {q : Queue} (v : q.Valid) (empty : q.len = 0)
    {ops : List Op} (clean : (machine c).Meets (Clean c) (.start c q fs) ops) :
    ∃ n, Sound c fs n ((machine c).after (.start c q fs) ops) := by
  refine Machine.invariant (P := fun s => ∃ n, Sound c fs n s) ?_ ⟨0, sound_start v empty⟩ clean
  rintro s op ⟨n, sound⟩ clean
  cases op with
  | append k => exact ⟨n, sound_append sound k⟩
  | recv =>
      rcases sound_recv ok sound clean with ⟨_, _, next⟩ | ⟨_, _, next⟩
      · exact ⟨n + 1, next⟩
      · exact ⟨n, next⟩

/-- As many calls as there are complete frames deliver them. -/
theorem recv_complete (ok : ∀ f ∈ fs, f.Ok c) (k : Nat) (sound : Sound c fs n s)
    (count : n + k ≤ fs.length)
    (seen : s.future.length ≤ (stream c.variant (fs.drop (n + k))).length)
    (clean : (machine c).Meets (Clean c) s (List.replicate k .recv)) :
    Sound c fs (n + k) ((machine c).after s (List.replicate k .recv)) := by
  induction k generalizing n s with
  | zero => exact sound
  | succ k ih =>
      have total := stream_split c (fs.drop (n + 1)) k
      rw [List.drop_drop, show n + 1 + k = n + (k + 1) by omega] at total
      rcases sound_recv ok sound clean.1 with ⟨_, _, next⟩ | ⟨incomplete, _⟩
      · have same : ((machine c).step s .recv).1.future = s.future := rfl
        have := ih next (by omega) (by
          rw [show n + 1 + k = n + (k + 1) by omega]
          exact same ▸ seen) clean.2
        rw [show n + 1 + k = n + (k + 1) by omega] at this
        exact this
      · exact absurd ⟨by omega, by omega⟩ incomplete

/-- In every session of calls that get on the messages received are the first ones of
    the stream, a further call receives the next one exactly when it is complete, and
    as many calls as there are complete frames receive them all. -/
theorem recv_delivers (ok : ∀ f ∈ fs, f.Ok c) {q : Queue} (v : q.Valid) (empty : q.len = 0)
    (ops : List Op) (clean : (machine c).Meets (Clean c) (.start c q fs) ops) :
    let M := machine c
    let s := M.after (.start c q fs) ops
    ∃ n, n ≤ fs.length ∧ s.delivered = (fs.map Frame.message).take n ∧
      (Clean c s .recv → ((M.step s .recv).2 = some (.ok 1) ↔ Complete c fs n s)) ∧
      ∀ k, n + k ≤ fs.length → s.future.length ≤ (stream c.variant (fs.drop (n + k))).length →
        M.Meets (Clean c) s (List.replicate k .recv) →
        (M.after s (List.replicate k .recv)).delivered = (fs.map Frame.message).take (n + k) := by
  intro M s
  obtain ⟨n, sound⟩ := sound_after ok v empty clean
  refine ⟨n, sound.count, by rw [← List.map_take]; exact sound.delivered, fun next => ?_,
    fun k count seen gotOn => ?_⟩
  · rcases sound_recv ok sound next with ⟨complete, ret, _⟩ | ⟨incomplete, ret, _⟩
    · exact ⟨fun _ => complete, fun _ => ret⟩
    · exact ⟨fun one => absurd one ret, fun complete => absurd complete incomplete⟩
  · rw [← List.map_take]
    exact (recv_complete ok k sound count seen gotOn).delivered

/-- An empty queue of 8 bytes whose content starts at `off`. -/
def emptyExample (off : Nat) : Queue := ⟨fun _ => 0, 16, 0, 8, off⟩

/-- The second frame wraps around the end of the storage. -/
theorem recv_delivers_wrapped :
    let fs : List Frame := [⟨[], [5], none⟩, ⟨[⟨[7], .zero⟩], [8], none⟩]
    let s := (machine .cobs).after (.start .cobs (emptyExample 5) fs)
      [.append 4, .recv, .append 2, .recv]
    ∃ n, n ≤ 2 ∧ s.delivered = ([[5], [7, 0, 8]] : List (List Byte)).take n := by
  intro fs s
  have ok : ∀ f ∈ fs, f.Ok .cobs := by
    simp only [fs, List.mem_cons, List.not_mem_nil, or_false]
    rintro f (rfl | rfl)
    · exact ⟨by simp, by decide, by decide⟩
    · exact ⟨by simpa using ⟨by decide, by decide⟩, by decide, by decide⟩
  obtain ⟨n, le, delivered, _⟩ := recv_delivers (c := .cobs) ok
    (q := emptyExample 5) ⟨by decide, by decide⟩ rfl
    [.append 4, .recv, .append 2, .recv]
    ⟨trivial, by decide +kernel, trivial, by decide +kernel, trivial⟩
  exact ⟨n, le, delivered⟩

/-- The decoder has read the code of a block and that code is dropped. -/
def dropped : DecodeState := ⟨2, 0, 0, 0, none⟩

/-- Where the code of a block is dropped before its first byte is decoded no call gets
    on, and none reports it. -/
theorem recv_stalls {q : Queue} {b : Byte} {src : List Byte} (v : q.Valid)
    (unread : q.content = b :: src) (data : b ≠ 0) :
    recv (some Codec.cobs.decoder) ⟨q, dropped⟩ = (⟨q, dropped⟩, .ok 0) := by
  have ready : Ready dropped q.ring := ⟨Nat.le_refl _, Nat.zero_le _, .inl rfl⟩
  have size : q.len = src.length + 1 := by simpa using congrArg List.length unread
  have gap := target_gap ready q.vectorSet q.vectorSet.length
  have curr : dropped.curr = 0 := rfl
  have noGap : gapAt dropped q.vectorSet q.vectorSet.length = 0 := by omega
  have noTarget : target dropped q.vectorSet q.vectorSet.length = (0, 0) := by
    apply Prod.ext
    · simp only; omega
    · simp only; omega
  have scanned : scanAt Codec.cobs.variant dropped.ctx
      (gapAt dropped q.vectorSet q.vectorSet.length) ((q.ring.drop dropped.curr).map q.mem) =
        some ⟨[], b :: src, 2, 0, .more⟩ := by
    rw [noGap, curr, List.drop_zero, Queue.map_ring, unread]
    have open_ : 0 < lenData Codec.cobs.variant 2 := by decide
    simp [scanAt, dropped, scan, open_, data]
  have call := decoder_answer .cobs (Queue.ring_nodup v) ready q.vectorSet_some
    (Queue.vectorSet_bytes v) scanned
  rw [noTarget] at call
  have len : q.len ≠ 0 := by omega
  have all : q.ring.length - (b :: src).length = 0 := by simp [size]
  simp only [recv, len, if_false, call, Cobs.answer, Scan.complete, report, Mem.scatter_nil,
    List.length_nil, all]
  rfl

/-- The frame 2 5 0, of which the first byte is appended before a call. -/
theorem dropped_code_stalls :
    let s := (machine .cobs).after (.start .cobs (emptyExample 0) [⟨[], [5], none⟩])
      [.append 0, .recv, .append 1]
    s.future = [] ∧ s.queue.data.content = [5, 0] ∧
      ∀ k, ((machine .cobs).after s (List.replicate k .recv)).delivered = [] := by
  intro s
  have state : s.queue.state = dropped := by decide +kernel
  have content : s.queue.data.content = [5, 0] := by decide +kernel
  have stalls : recv (some Codec.cobs.decoder) s.queue = (s.queue, .ok 0) := by
    have := recv_stalls (q := s.queue.data) ⟨by decide +kernel, by decide +kernel⟩ content
      (by decide)
    rw [← state] at this
    exact this
  have stuck : ((machine .cobs).step s .recv).1 = s := by
    simp only [machine, step, stalls]
  refine ⟨by decide +kernel, content, fun k => ?_⟩
  have same : (machine .cobs).after s (List.replicate k .recv) = s := by
    induction k with
    | zero => rfl
    | succ k ih => rw [List.replicate_succ, Machine.after, stuck, ih]
  rw [same]
  decide +kernel

end Mpt.DecodeQueue
