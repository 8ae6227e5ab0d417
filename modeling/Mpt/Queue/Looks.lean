import Mpt.Queue.Peek
import Mpt.Hidden

/-! # Appending, receiving and looking in any order

A session with looks at the queue gives the same answers as the one without them, and
what a look copies is the start of the next message.
-/

namespace Mpt.DecodeQueue

open Cobs
open Cobs.InPlace (view)

variable {c : Codec} {d d' : DecodeQueue}

/-! ## What was copied -/

/-- Bytes that were copied are the start of the message in progress. -/
def Shows (out : List Byte) (d : DecodeQueue) : Prop :=
  out = [] ∨ d.state.msg = none ∧ d.state.len ≠ 0 ∧ out <+: d.begun

variable {out : List Byte}

theorem onward_begun (v : d.data.Valid) {state : DecodeState} {m : Mem Byte}
    {ret : Except Error Nat} (h : Onward d.data.ring d.data.mem d.state (state, m, ret)) :
    d.begun <+: begun ⟨{ d.data with mem := m }, state⟩ := by
  obtain ⟨pos, len, ⟨high, only⟩, _⟩ := h
  have kept := started_kept (Queue.ring_nodup v) only len
  have content : ({ d.data with mem := m } : Queue).content = d.data.ring.map m := by
    rw [← Queue.map_ring]
    rfl
  simp only at pos
  unfold begun
  rw [content, ← Queue.map_ring, pos]
  exact kept

theorem further_shows (h : Further c d d') (v : d.data.Valid) (shows : Shows out d) :
    Shows out d' := by
  rcases shows with nothing | ⟨busy, some, start⟩
  · exact .inl nothing
  obtain ⟨data', state'⟩ := d'
  obtain ⟨m', rfl, ahead⟩ := h
  have onward := ahead.onward busy (.error .missingData)
  have open' : state'.msg = none := onward.msg.resolve_right fun ⟨_, _, ok⟩ => by cases ok
  have len := onward.len
  exact .inr ⟨open', by simp only at len ⊢; omega, start.trans (onward_begun v onward)⟩

/-- `mpt_queue_shift` leaves a message where it is. -/
theorem shift_same (v : d.data.Valid) (some : d.state.len ≠ 0) :
    d.shift.state.msg = d.state.msg ∧ d.shift.state.len = d.state.len ∧
      d.shift.data.content.drop d.shift.state.pos = d.data.content.drop d.state.pos := by
  unfold shift
  split
  · exact ⟨rfl, rfl, rfl⟩
  split
  · exact ⟨rfl, rfl, rfl⟩
  rcases d.data.crop_front (spent d.state) with ⟨fits, ret, eq⟩ | ⟨_, eq⟩
  · have place : spent d.state + keptPos d.state = d.state.pos := by
      unfold spent keptPos
      by_cases before : d.state.pos < d.state.curr
      · simp [some, before]
      · simp only [some, before, ne_eq, not_false_eq_true, or_true, and_false, if_false, if_true]
        omega
    rw [eq]
    refine ⟨rfl, rfl, ?_⟩
    simp only [Queue.content_dropFront v, List.drop_drop, place]
  · rw [eq]
    exact ⟨rfl, rfl, rfl⟩

/-- An answer reports the message or leaves it in progress. -/
theorem answer_shows (v : d.data.Valid) (some : d.state.len ≠ 0)
    (msg : d.state.msg = none ∨ d.state.msg = Option.some d.state.len)
    (start : out <+: d.begun) :
    (d.answer.2 = .ok 1 → out <+: d.answer.1.reported) ∧
      (d.answer.2 ≠ .ok 1 → Shows out d.answer.1) := by
  obtain ⟨msg', len, place⟩ := shift_same v some
  unfold answer
  rcases msg with busy | done
  · simp only [busy, if_true]
    refine ⟨nofun, fun _ => .inr ⟨msg'.trans busy, by rw [len]; exact some, ?_⟩⟩
    unfold begun at start ⊢
    rw [place, len]
    exact start
  · simp only [done, reduceCtorEq, if_false]
    refine ⟨fun _ => ?_, fun other => absurd rfl other⟩
    unfold reported
    rw [place, msg', done]
    exact start

/-- A call that goes on with the message in progress reports it or leaves it there. -/
theorem given_shows (v : d.data.Valid) (some : d.state.len ≠ 0) (start : out <+: d.begun)
    {r : DecodeState × Mem Byte × Except Error Nat}
    (onward : Onward d.data.ring d.data.mem d.state r) :
    ((given d.data r).2 = .ok 1 → out <+: (given d.data r).1.reported) ∧
      ((given d.data r).2 ≠ .ok 1 → Shows out (given d.data r).1) := by
  obtain ⟨state, mem, ret⟩ := r
  have len := onward.len
  simp only at len
  have some' : state.len ≠ 0 := by omega
  have start' := start.trans (onward_begun v onward)
  have v' : ({ d.data with mem := mem } : Queue).Valid := ⟨v.off_le, v.len_le⟩
  cases ret with
  | ok k => exact answer_shows v' some' (onward.msg.imp_right And.left) start'
  | error e =>
      have open' : state.msg = none := onward.msg.resolve_right fun ⟨_, _, ok⟩ => by cases ok
      exact ⟨nofun, fun _ => .inr ⟨open', some', start'⟩⟩

/-- More room in front of the content leaves the message in progress. -/
theorem begun_raise {q q' : Queue} {room : Nat} (mem : q'.mem = q.mem)
    (ring : q'.ring.drop room = q.ring) (state : DecodeState) :
    begun ⟨q', raise room state⟩ = begun ⟨q, state⟩ := by
  have cells : q'.content.drop room = q.content := by
    rw [← Queue.map_ring, ← Queue.map_ring, ← List.map_drop, ring, mem]
  unfold begun
  show (q'.content.drop (state.pos + room)).take state.len = _
  rw [Nat.add_comm, ← List.drop_drop, cells]

theorem recv_shows (sane : Sane d) (shows : Shows out d) :
    ((d.recv (some c.decoder)).2 = .ok 1 → out <+: (d.recv (some c.decoder)).1.reported) ∧
      ((d.recv (some c.decoder)).2 ≠ .ok 1 → Shows out (d.recv (some c.decoder)).1) := by
  rcases shows with rfl | ⟨busy, some, start⟩
  · exact ⟨fun _ => List.nil_prefix, fun _ => .inl rfl⟩
  by_cases empty : d.data.len = 0
  · unfold recv
    rw [if_pos empty]
    exact ⟨(fun h => by cases h), fun _ => .inr ⟨busy, some, start⟩⟩
  have onward := decoder_onward (c := c) (m := d.data.mem) d.data.vectorSet
    d.data.vectorSet.length sane.settled busy some
  have settled := decoder_settled (c := c) (m := d.data.mem) d.data.vectorSet
    d.data.vectorSet.length sane.settled
  rw [view, Queue.vectorSet_bytes sane.valid] at onward
  rcases call : c.decoder d.state d.data.mem (Option.some d.data.vectorSet)
    d.data.vectorSet.length with ⟨state, mem, ret⟩
  rw [call] at onward settled
  rcases recv_cases sane.valid empty call with eq | ⟨failed, q, room, v, same, ring, eq⟩
  · rw [eq]
    exact given_shows sane.valid some start onward
  · -- the second call finds the same message behind the room made
    have len := onward.len
    simp only at len failed same
    have some' : state.len ≠ 0 := by omega
    have busy' : state.msg = none :=
      onward.msg.resolve_right fun settled => by
        obtain ⟨_, k, ok⟩ := settled
        simp [failed] at ok
    have place : begun ⟨q, raise room state⟩ = begun ⟨{ d.data with mem := mem }, state⟩ :=
      begun_raise (q := { d.data with mem := mem }) same ring state
    have start' : out <+: begun ⟨q, raise room state⟩ :=
      place ▸ start.trans (onward_begun sane.valid onward)
    have raised : Settled (raise room state) := ⟨settled.ctx, settled.msg, settled.code⟩
    have again := decoder_onward (c := c) (m := q.mem) q.vectorSet q.vectorSet.length raised busy'
      some'
    rw [view, Queue.vectorSet_bytes v] at again
    rw [eq]
    exact given_shows (d := ⟨q, raise room state⟩) v some' start' again

/-! ## Accesses in any order -/

/-- What is done with a decode queue. -/
inductive Access where
  /-- append bytes behind the content, at least one -/
  | append (first : Byte) (rest : List Byte)
  | recv
  | peek (max : Nat) (dst : Bool)
  deriving Repr, DecidableEq

def Access.looks : Access → Bool
  | .peek _ _ => true
  | _ => false

inductive Answer where
  | appended (ret : Except Error Nat)
  /-- the value returned and the message that was reported -/
  | received (ret : Except Error Nat) (message : Option (List Byte))
  /-- the value returned and the bytes copied -/
  | seen (ret : Except Error (Nat × List Byte))

/-- The message of an answer that reports one. -/
def report (ret : Except Error Nat) (message : List Byte) : Option (List Byte) :=
  match ret with
  | .ok 1 => some message
  | _ => none

theorem report_other {ret : Except Error Nat} (other : ret ≠ .ok 1) (message : List Byte) :
    report ret message = none := by
  unfold report
  split
  · exact absurd rfl other
  · rfl

def access (dec : Option Decoder) (d : DecodeQueue) : Access → DecodeQueue × Answer
  | .append first rest =>
      (⟨(d.data.push (.bytes (first :: rest))).1, d.state⟩,
        .appended (d.data.push (.bytes (first :: rest))).2)
  | .recv =>
      let (d', ret) := d.recv dec
      (d', .received ret (report ret d'.reported))
  | .peek max dst =>
      let (d', ret) := d.peek dec max dst
      (d', .seen ret)

/-- A queue with a decoder or without one. -/
def accesses (codec : Option Codec) : Machine DecodeQueue Access Answer where
  step := access (codec.map Codec.decoder)

/-- The messages that were reported. -/
def messages (answers : List Answer) : List (List Byte) :=
  answers.filterMap fun
    | .received _ message => message
    | _ => none

theorem begun_push (v : d.data.Valid) (src : Data) (some : 0 < src.len) (shows : Shows out d) :
    Shows out ⟨(d.data.push src).1, d.state⟩ := by
  rcases shows with nothing | ⟨busy, started, start⟩
  · exact .inl nothing
  refine .inr ⟨busy, started, start.trans ?_⟩
  rcases Queue.push_spec v src some with ⟨_, m, ret, eq, content⟩ | ⟨_, eq⟩
  · rw [eq]
    unfold begun
    simp only [content, List.drop_append]
    rw [List.take_append]
    exact List.prefix_append _ _
  · have same : begun ⟨(d.data.push src).1, d.state⟩ = d.begun :=
      congrArg (fun r => begun ⟨r.1, d.state⟩) eq
    exact same ▸ List.prefix_rfl

theorem peek_sane (sane : Sane d) (max : Nat) (dst : Bool) :
    Sane (d.peek (some c.decoder) max dst).1 := by
  obtain ⟨⟨m', data, ahead⟩, _⟩ := peek_further (c := c) sane.valid sane.settled max dst
  refine ⟨?_, ahead.settled sane.settled⟩
  rw [data]
  exact ⟨sane.valid.off_le, sane.valid.len_le⟩

theorem access_sane (sane : Sane d) (a : Access) :
    Sane ((accesses (some c)).step d a).1 := by
  cases a with
  | append first rest => exact ⟨Queue.push_valid sane.valid _ (Nat.succ_pos _), sane.settled⟩
  | recv => exact recv_sane sane
  | peek max dst => exact peek_sane sane max dst

/-- A step reports a message that starts with what was copied, or that still is the
    start of the message in progress. -/
theorem access_shows (sane : Sane d) (shows : Shows out d) (a : Access) :
    (∃ message, messages [((accesses (some c)).step d a).2] = [message] ∧ out <+: message) ∨
      messages [((accesses (some c)).step d a).2] = [] ∧
        Shows out ((accesses (some c)).step d a).1 := by
  cases a with
  | append first rest =>
      exact .inr ⟨rfl, begun_push sane.valid _ (Nat.succ_pos _) shows⟩
  | peek max dst =>
      exact .inr ⟨rfl, further_shows (peek_further sane.valid sane.settled max dst).1 sane.valid
        shows⟩
  | recv =>
      obtain ⟨one, other⟩ := recv_shows (c := c) sane shows
      simp only [accesses, access, Option.map_some]
      generalize d.recv (some c.decoder) = r at one other
      obtain ⟨d', ret⟩ := r
      by_cases done : ret = .ok 1
      · subst done
        exact .inl ⟨_, rfl, one rfl⟩
      · refine .inr ⟨?_, other done⟩
        simp only [report_other done]
        rfl

theorem messages_cons (a : Answer) (answers : List Answer) :
    messages (a :: answers) = messages [a] ++ messages answers := by
  rw [← List.singleton_append, messages, List.filterMap_append]
  rfl

/-- The next message that is reported starts with what was copied. -/
theorem next_message (sane : Sane d) (shows : Shows out d) (after : List Access)
    {message : List Byte} {later : List (List Byte)}
    (next : messages ((accesses (some c)).outputs d after) = message :: later) :
    out <+: message := by
  induction after generalizing d with
  | nil => cases next
  | cons a after ih =>
      rw [Machine.outputs, messages_cons] at next
      rcases access_shows (c := c) sane shows a with ⟨first, eq, start⟩ | ⟨eq, shows'⟩
      · rw [eq] at next
        obtain rfl := (List.cons.inj next).1
        exact start
      · rw [eq] at next
        exact ih (access_sane sane a) shows' next

theorem shift_msg (d : DecodeQueue) : d.shift.state.msg = d.state.msg := by
  unfold shift
  split
  · rfl
  · split
    · rfl
    · split <;> rfl

/-- Without a decoder no message is reported. -/
theorem recv_raw (open' : d.state.msg = none) :
    (d.recv none).1.state.msg = none ∧ (d.recv none).2 ≠ .ok 1 := by
  unfold recv recvRaw
  simp only [open']
  split
  · exact ⟨open', nofun⟩
  · split
    · exact ⟨open', nofun⟩
    · exact ⟨shift_msg _, nofun⟩

theorem peek_raw (d : DecodeQueue) (max : Nat) (dst : Bool) : (d.peek none max dst).1 = d := by
  unfold peek
  split <;> rfl

theorem access_raw (open' : d.state.msg = none) (a : Access) :
    messages [((accesses none).step d a).2] = [] ∧
      ((accesses none).step d a).1.state.msg = none := by
  cases a with
  | append first rest => exact ⟨rfl, open'⟩
  | peek max dst =>
      refine ⟨rfl, ?_⟩
      show (d.peek none max dst).1.state.msg = none
      rw [peek_raw]
      exact open'
  | recv =>
      obtain ⟨next, other⟩ := recv_raw open'
      simp only [accesses, access, Option.map_none]
      generalize d.recv none = r at next other
      obtain ⟨d', ret⟩ := r
      refine ⟨?_, next⟩
      simp only [report_other other]
      rfl

theorem raw_silent (open' : d.state.msg = none) (ops : List Access) :
    messages ((accesses none).outputs d ops) = [] := by
  induction ops generalizing d with
  | nil => rfl
  | cons a ops ih =>
      obtain ⟨silent, next⟩ := access_raw open' a
      rw [Machine.outputs, messages_cons, silent, ih next]
      rfl

/-- With or without a decoder, what is appended and received does not depend on the
    looks at the queue in between, and what a look copies is the start of the next
    message that is reported. -/
theorem peek_hidden (codec : Option Codec) {q : Queue} (v : q.Valid) :
    let M := accesses codec
    let start : DecodeQueue := ⟨q, .init⟩
    (∀ ops, M.visible Access.looks start ops =
        M.outputs start (ops.filter fun a => !a.looks)) ∧
      ∀ (before after : List Access) (max : Nat) (dst : Bool) (n : Nat) (out message : List Byte)
        (later : List (List Byte)),
        (M.step (M.after start before) (.peek max dst)).2 = .seen (.ok (n, out)) →
        messages (M.outputs (M.after start before) (.peek max dst :: after)) = message :: later →
        out <+: message := by
  intro M start
  have settled : Settled start.state := ⟨(by decide : 0 < 0x10000), .inl rfl, fun _ => .inl rfl⟩
  have sane : Sane start := ⟨v, settled⟩
  cases codec with
  | none =>
      constructor
      · intro ops
        refine Machine.visible_eq (R := Eq) ?_ ?_ rfl ops
        · rintro s _ (_ | _ | _) rfl look
          · cases look
          · cases look
          · exact (peek_raw s _ _).symm
        · rintro s _ i rfl _
          exact ⟨rfl, rfl⟩
      · intro before after max dst n out message later _ next
        have silent := Machine.invariant_always (M := M) (P := fun d => d.state.msg = none)
          (fun _ a open' => (access_raw open' a).2) (s := start) rfl before
        rw [raw_silent silent] at next
        cases next
  | some c =>
      constructor
      · intro ops
        refine Machine.visible_eq (R := fun s t => Further c s t ∧ Sane s ∧ Sane t) ?_ ?_
          ⟨.refl c start, sane, sane⟩ ops
        · rintro s t i ⟨further, here, there⟩ look
          refine ⟨?_, here, access_sane there i⟩
          cases i with
          | append first rest => cases look
          | recv => cases look
          | peek max dst => exact further.trans (peek_further there.valid there.settled max dst).1
        · rintro s t i ⟨further, here, there⟩ look
          cases i with
          | append first rest =>
              obtain ⟨same, next⟩ :=
                further.push here.valid (.bytes (first :: rest)) (Nat.succ_pos _)
              exact ⟨congrArg Answer.appended same, next, access_sane here _, access_sane there _⟩
          | recv =>
              have same : M.step t .recv = M.step s .recv := by
                simp only [M, accesses, access, Option.map_some, further.recv here.valid]
              rw [same]
              exact ⟨rfl, .refl c _, access_sane here _, access_sane here _⟩
          | peek max dst => cases look
      · intro before after max dst n out message later look next
        have sane' := Machine.invariant_always (M := M) (P := Sane)
          (fun _ a h => access_sane h a) sane before
        have copied := (peek_further (c := c) sane'.valid sane'.settled max dst).2 n out
          (by simpa [M, accesses, access] using look)
        rw [Machine.outputs, messages_cons] at next
        exact next_message (access_sane sane' (.peek max dst)) copied after next

/-- A look at a message in progress that wraps around the end of the storage. -/
theorem peek_hidden_wrapped :
    let M := accesses (some .cobs)
    let start : DecodeQueue := ⟨emptyExample 6, .init⟩
    M.visible Access.looks start [.append 3 [7, 8], .recv, .peek 4 true, .append 0 [], .recv] =
      M.outputs start [.append 3 [7, 8], .recv, .append 0 [], .recv] :=
  (peek_hidden (some .cobs) (q := emptyExample 6) ⟨by decide, by decide⟩).1 _

end Mpt.DecodeQueue
