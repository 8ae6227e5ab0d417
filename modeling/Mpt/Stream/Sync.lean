import Mpt.Queue.Deliver
import Mpt.Queue.Resize
import Mpt.Message.Id
import Mpt.Event.Table
import Mpt.Event.Reply

/-! # Waiting for replies

`mpt_stream_sync` receives one message after another from the stream and hands each
to the handler that waits for its id, as long as there are such handlers.  What is
read from the stream and what the handlers answer is a parameter.
-/

namespace Mpt.Sync

open Event (Command commandFind)
open Cobs (Codec)

/-- What one call of `mpt_stream_poll` meets. -/
inductive Poll where
  /-- no input; `readable` if there is a descriptor to read from, `waiting` if data is
      left to be written -/
  | nothing (readable waiting : Bool)
  /-- bytes to read, and the memory to enlarge a full queue (none for one that is mapped);
      `waiting` as before -/
  | input (data : List Byte) (grant : Option Fresh) (waiting : Bool)

/-- `mpt_stream_poll` for input: whether there was any, `none` for a negative result. -/
def streamPoll (d : DecodeQueue) : Poll → DecodeQueue × Option Bool
  | .nothing readable waiting =>
      (if readable then d.shift else d, if waiting then some false else none)
  | .input data grant waiting =>
      let d := d.shift
      let (queue, room) :=
        if d.data.len = d.data.max then d.data.prepare grant 64 else (d.data, 1)
      if room = 0 then
        (⟨queue, d.state⟩, if waiting then some false else none)
      else
        match data.take (queue.max - queue.len) with
        -- regular close
        | [] => (⟨queue, d.state⟩, if waiting then some false else none)
        | data => (⟨(queue.push (.bytes data)).1, d.state⟩, some true)

/-- `mpt_message_get` with space for a second part. -/
def messageGet (q : Queue) (off take : Nat) : Option Message :=
  let low := q.data.2
  let high := q.len - low
  let parts := fun base low high : Nat =>
    if low + high < take then
      none
    else if take ≤ low then
      some (⟨base, take, []⟩ : Message)
    else
      some ⟨base, low, [⟨q.base, take - low⟩]⟩
  if off < low then
    parts (q.data.1 + off) (low - off) high
  else if high < off - low then
    none
  else
    parts (q.base + (off - low)) (high - (off - low)) 0

/-- A handler call: the handler, its argument and the bytes handed to it. -/
structure Call where
  cmd : Nat
  arg : Nat
  msg : List Byte
  deriving Repr, DecidableEq

/-- What is not under control of the function. -/
structure Env where
  /-- the result of the `n`-th handler call -/
  handler : Nat → Int
  /-- what the variable for the id holds when `n` calls are made: `mpt_message_buf2id`
      does not set it -/
  id : Nat → UInt64
  /-- what the buffer for the id bytes holds before they are read -/
  buf : Nat → Byte

/-- The stream with the waiting handlers, the calls made and the messages that
    `mpt_queue_recv` has completed. -/
structure Waiting where
  rd : DecodeQueue
  cmds : List Command
  calls : List Call
  received : List (List Byte)

/-- How a call ends. -/
inductive Ended where
  | ret (count : Nat)
  | error (e : Error)
  /-- `MPT_MESGERR(ActiveInput)` -/
  | activeInput
  /-- a message is used that is not set -/
  | undefined
  /-- the call goes on -/
  | running
  deriving Repr, DecidableEq

/-- The number of waiting commands. -/
def waiting (cmds : List Command) : Nat := cmds.countP fun c => c.cmd ≠ 0

/-- Compress waiting return commands. -/
def finish (w : Waiting) (count : Nat) : Waiting × Ended :=
  if w.cmds.length / 2 < count then
    (w, .ret count)
  else
    let cmds := w.cmds.filter fun c => c.cmd ≠ 0
    ({ w with cmds := cmds }, .ret cmds.length)

/-- Get the message of the stream; `none` goes on with the one that is there. -/
def receive (dec : Option Decoder) (w : Waiting) (count : Nat) (poll : Poll) :
    Waiting × Option Ended :=
  if w.rd.state.msg.isSome then
    (w, none)
  else
    match streamPoll w.rd poll with
    | (rd, none) => ({ w with rd := rd }, some (.error .badOperation))
    | (rd, some false) => ({ w with rd := rd }, some (.ret count))
    | (rd, some true) =>
        match rd.recv dec with
        | (rd, .error e) => ({ w with rd := rd }, some (.error e))
        | (rd, .ok 0) => ({ w with rd := rd }, none)
        | (rd, .ok ret) => ({ w with rd := rd, received := w.received ++ [rd.reported] }, some (.ret ret))

/-- The id and the bytes behind it. -/
def identify (env : Env) (idlen : Nat) (w : Waiting) : Waiting × Except Ended (UInt64 × List Byte) :=
  let rd := w.rd.shift
  let w := { w with rd := rd }
  match rd.state.msg.bind (messageGet rd.data rd.state.pos) with
  | none => (w, .error .undefined)
  | some msg =>
      let (msg, addrs) := msg.read idlen
      let buf : Mem Byte := fun i => (addrs[i]?.map rd.data.mem).getD (env.buf i)
      if buf 0 &&& 0x80 = 0 then
        (w, .error .activeInput)
      else
        let id := Message.buf2id (buf.set 0 (buf 0 &&& 0x7f)) 0 idlen
        match id.ret with
        | .error _ => (w, .error (.error .badValue))
        | .ok used =>
            if 8 < used then
              (w, .error (.error .badValue))
            else
              (w, .ok (id.stored.getD (env.id w.calls.length), msg.bytes.map rd.data.mem))

/-- Hand a message to the handler for its id, which is deregistered, or to the one for
    all others; `none` if there is neither. -/
def deliver (env : Env) (w : Waiting) (count : Nat) (id : UInt64) (msg : List Byte) :
    Option (Waiting × Nat × Int) :=
  let call (w : Waiting) (c : Command) : Waiting :=
    { w with calls := w.calls ++ [⟨c.cmd, c.arg, msg⟩] }
  let ret := env.handler w.calls.length
  match (commandFind w.cmds id).bind fun pos => w.cmds[pos]?.map fun c => (pos, c) with
  | some (pos, c) =>
      some ({ call w c with cmds := w.cmds.set pos { c with cmd := 0 } }, count - 1, ret)
  | none =>
      match (commandFind w.cmds 0).bind fun pos => w.cmds[pos]? with
      | some c => some (call w c, count, ret)
      | none => none

/-- The loop of `mpt_stream_sync`. -/
def syncLoop (env : Env) (dec : Option Decoder) (idlen : Nat) (poll : Poll) :
    (fuel : Nat) → Waiting → (count : Nat) → Waiting × Ended
  | 0, w, _ => (w, .running)
  | fuel + 1, w, count =>
      if count = 0 then
        finish w count
      else if 255 < idlen then
        (w, .error .badArgument)
      else
        match receive dec w count poll with
        | (w, some ended) => (w, ended)
        | (w, none) =>
            match identify env idlen w with
            | (w, .error ended) => (w, ended)
            | (w, .ok (id, msg)) =>
                match deliver env w count id msg with
                | none => syncLoop env dec idlen poll fuel w count
                | some (w, count, ret) =>
                    if ret < 0 then finish w count else syncLoop env dec idlen poll fuel w count

/-- `mpt_stream_sync` -/
def streamSync (env : Env) (dec : Option Decoder) (idlen fuel : Nat) (poll : Poll) (w : Waiting) :
    Waiting × Ended :=
  if w.cmds.length = 0 then
    (w, .ret 0)
  else if idlen = 0 then
    (w, .ret (waiting w.cmds))
  else
    syncLoop env dec idlen poll fuel w (waiting w.cmds)

/-! ## What waiting for replies is for -/

/-- The number in the id bytes of a reply, without the flag. -/
def replyId (idlen : Nat) (reply : List Byte) : Nat :=
  (Event.clearFlag (reply.take idlen)).foldl (fun id b => id * 0x100 + b.toNat) 0

/-- A reply goes to the handler for its id, once, else to the one for all others, else
    to none. -/
def serve (idlen : Nat) (s : List Command × List Call) (reply : List Byte) :
    List Command × List Call :=
  let (cmds, calls) := s
  let msg := reply.drop idlen
  match cmds.find? fun c => c.cmd ≠ 0 ∧ c.id.toNat = replyId idlen reply with
  | some c => (cmds.erase c, calls ++ [⟨c.cmd, c.arg, msg⟩])
  | none =>
      match cmds.find? fun c => c.cmd ≠ 0 ∧ c.id = 0 with
      | some c => (cmds, calls ++ [⟨c.cmd, c.arg, msg⟩])
      | none => (cmds, calls)

/-- All replies one after another. -/
def served (idlen : Nat) (cmds : List Command) (replies : List (List Byte)) :
    List Command × List Call :=
  replies.foldl (serve idlen) (cmds.filter fun c => c.cmd ≠ 0, [])

/-- The stream with what it waits for, and whether all calls have ended. -/
structure Session where
  waiting : Waiting
  ended : Bool

/-- Calls of `mpt_stream_sync`, one for each input. -/
def machine (env : Env) (dec : Option Decoder) (idlen fuel : Nat) :
    Machine Session Poll Ended where
  step s poll :=
    let (w, ended) := streamSync env dec idlen fuel poll s.waiting
    (⟨w, s.ended && ended ≠ .running && ended ≠ .undefined⟩, ended)

/-- A stream without a message and its table of handlers. -/
def Session.start (rd : DecodeQueue) (cmds : List Command) : Session := ⟨⟨rd, cmds, [], []⟩, true⟩

/-- The replies that are not left for the next call. -/
def handled (w : Waiting) : List (List Byte) :=
  if w.rd.state.msg.isSome then w.received.dropLast else w.received

/-- Every call has ended, the replies that are gone from the stream went where they
    belong, and what is unanswered is kept. -/
structure Exact (idlen : Nat) (cmds : List Command) (s : Session) : Prop where
  ended : s.ended = true
  calls : s.waiting.calls = (served idlen cmds (handled s.waiting)).2
  kept : s.waiting.cmds.filter (fun c => c.cmd ≠ 0) = (served idlen cmds (handled s.waiting)).1

/-- The call does not come to handle a message: none has been received before, and
    what it reads is not the start of one. -/
def Unread (dec : Option Decoder) (idlen : Nat) (s : Session) (poll : Poll) : Prop :=
  waiting s.waiting.cmds ≠ 0 → 1 ≤ idlen → idlen ≤ 255 →
    s.waiting.rd.state.msg = none ∧
      ((streamPoll s.waiting.rd poll).2 = some true →
        ((streamPoll s.waiting.rd poll).1.recv dec).2 ≠ .ok 0)

section Received

/-- Without a message before, there is none after a call that does not say so. -/
def Silent (r : DecodeState × Mem Byte × Except Error Nat) : Prop := r.1.msg = none ∨ r.2.2 = .ok 1

variable {c : Codec} {v : Cobs.Variant} {dec : DecodeState} {m : Mem Byte}

theorem blocks_silent (idle : dec.msg = none) (one : Bool) (dst src : Message)
    (done mlen proc code pos : Nat) :
    Silent (Cobs.decodeBlocks v dec m one dst src done mlen proc code pos) := by
  unfold Cobs.decodeBlocks
  simp only
  split
  · exact .inr rfl
  · exact .inl idle
  · exact .inl idle
  · exact .inl idle

theorem from_silent (idle : dec.msg = none) (one : Bool) (tmp : Message) (done mlen proc : Nat) :
    Silent (Cobs.decodeFrom v dec m one tmp done mlen proc) := by
  have blocks := fun src proc code pos =>
    blocks_silent (v := v) (m := m) idle one tmp src done mlen proc code pos
  unfold Cobs.decodeFrom
  grind [Silent]

theorem decode_silent (idle : dec.msg = none) (source : Option (List Iovec)) (n : Nat) :
    Silent (Cobs.decode v dec m source n) := by
  unfold Cobs.decode
  cases source with
  | none => grind [Silent]
  | some source =>
      simp only
      split
      · exact .inl idle
      · split
        · exact .inl idle
        · split
          · split
            · exact .inl rfl
            · exact from_silent rfl ..
          · exact from_silent rfl ..

/-- A decoder that reports an error has no message. -/
theorem decoder_error {source : Option (List Iovec)} {n : Nat} {e : Error} (idle : dec.msg = none)
    (failed : (c.decoder dec m source n).2.2 = .error e) :
    (c.decoder dec m source n).1.msg = none := by
  have whole := decode_silent (v := c.variant) (m := m) idle source n
  unfold Cobs.Codec.decoder at failed ⊢
  cases tail : c.tail with
  | false =>
      rw [tail] at failed
      rcases whole with none | one
      · exact none
      · exact absurd (one.symm.trans failed) (by simp)
  | true =>
      simp only [tail, if_true, Cobs.decodeR] at failed ⊢
      rcases run : Cobs.decode c.variant dec m source n with ⟨dec', m', ret⟩
      simp only [run] at failed ⊢
      rw [run] at whole
      cases ret with
      | ok k => cases failed
      | error e' =>
          have silent : dec'.msg = none := by
            rcases whole with none | one
            · exact none
            · cases one
          cases e' with
          | missingData =>
              simp only at failed ⊢
              split
              · exact silent
              · rename_i left
                rw [if_neg left] at failed
                split
                · exact silent
                · rename_i space
                  rw [if_neg space] at failed
                  cases failed
          | _ => exact silent

@[simp] theorem shift_msg (d : DecodeQueue) : d.shift.state.msg = d.state.msg := by
  unfold DecodeQueue.shift
  split
  · rfl
  · split
    · rfl
    · split <;> rfl

theorem streamPoll_msg (d : DecodeQueue) (poll : Poll) :
    (streamPoll d poll).1.state.msg = d.state.msg := by
  cases poll with
  | nothing readable waiting =>
      simp only [streamPoll]
      split
      · exact shift_msg d
      · rfl
  | input data grant waiting =>
      have same := shift_msg d
      simp only [streamPoll]
      grind

/-- A message is there after a call of `mpt_queue_recv` that says so. -/
theorem recv_answer (d : DecodeQueue) : ∀ n, (d.answer).2 = .ok (n + 1) →
    d.answer.1.state.msg.isSome := by
  intro n said
  simp only [DecodeQueue.answer, shift_msg] at said ⊢
  cases msg : d.state.msg with
  | none => simp [msg] at said
  | some k => rfl

/-- What `mpt_queue_recv` leaves where no message was before. -/
structure Heard (r : DecodeQueue × Except Error Nat) : Prop where
  failed : ∀ e, r.2 = .error e → r.1.state.msg = none
  said : ∀ n, r.2 = .ok (n + 1) → r.1.state.msg.isSome

theorem answer_heard (d : DecodeQueue) : Heard d.answer where
  failed e said := by cases said
  said := recv_answer d

theorem error_heard {d : DecodeQueue} (idle : d.state.msg = none) (e : Error) :
    Heard (d, .error e) where
  failed _ _ := idle
  said n said := by cases said

theorem retry_heard {state : DecodeState} (idle : state.msg = none) (q : Queue) :
    Heard (match c.decoder state q.mem (some q.vectorSet) q.vectorSet.length with
      | (state, mem, .error e) => (⟨{ q with mem := mem }, state⟩, .error e)
      | (state, mem, .ok _) => DecodeQueue.answer ⟨{ q with mem := mem }, state⟩) := by
  rcases run : c.decoder state q.mem (some q.vectorSet) q.vectorSet.length with ⟨state', mem', ret⟩
  cases ret with
  | ok k => exact answer_heard _
  | error e =>
      have silent := decoder_error idle (congrArg (·.2.2) run)
      rw [run] at silent
      exact error_heard silent _

theorem recv_heard (c : Option Codec) {d : DecodeQueue} (idle : d.state.msg = none) :
    Heard (d.recv (c.map Codec.decoder)) := by
  unfold DecodeQueue.recv
  split
  · exact error_heard idle _
  · cases c with
    | none =>
        simp only [Option.map_none, DecodeQueue.recvRaw, idle]
        split
        · exact error_heard idle _
        · exact ⟨nofun, nofun⟩
    | some c =>
        have first : ∀ e, (c.decoder d.state d.data.mem (some d.data.vectorSet)
            d.data.vectorSet.length).2.2 = .error e → (c.decoder d.state d.data.mem
              (some d.data.vectorSet) d.data.vectorSet.length).1.msg = none :=
          fun e failed => decoder_error idle failed
        simp only [Option.map_some]
        rcases run : c.decoder d.state d.data.mem (some d.data.vectorSet)
          d.data.vectorSet.length with ⟨state, mem, ret⟩
        rw [run] at first
        cases ret with
        | ok k => exact answer_heard _
        | error e =>
            have none := first e rfl
            cases e with
            | missingBuffer =>
                simp only
                split
                · exact error_heard none _
                · split
                  · exact error_heard none _
                  · exact retry_heard (by exact none) _
            | _ => exact error_heard none _

end Received

section Calls

variable {env : Env} {c : Option Codec} {idlen fuel : Nat} {cmds : List Command} {s : Session}
  {w w' : Waiting} {poll : Poll}

/-- A call that hands no reply over. -/
structure Idle (w w' : Waiting) : Prop where
  calls : w'.calls = w.calls
  handled : handled w' = handled w
  kept : w'.cmds.filter (fun c => c.cmd ≠ 0) = w.cmds.filter fun c => c.cmd ≠ 0

theorem Idle.refl (w : Waiting) : Idle w w := ⟨rfl, rfl, rfl⟩

theorem idle_finish (w : Waiting) (count : Nat) : Idle w (finish w count).1 := by
  unfold finish
  split
  · exact .refl w
  · exact ⟨rfl, rfl, by simp⟩

theorem finish_ret (w : Waiting) (count : Nat) : ∃ n, (finish w count).2 = .ret n := by
  unfold finish
  split <;> exact ⟨_, rfl⟩

/-- What comes from the stream is left for the next call, or it is the start of a
    message. -/
theorem receive_idle (none : w.rd.state.msg = none) (count : Nat) (poll : Poll)
    (whole : (streamPoll w.rd poll).2 = some true →
      ((streamPoll w.rd poll).1.recv (c.map Codec.decoder)).2 ≠ .ok 0) :
    ∃ w' ended, receive (c.map Codec.decoder) w count poll = (w', some ended) ∧ Idle w w' ∧
      ended ≠ .running ∧ ended ≠ .undefined := by
  have before : handled w = w.received := by simp [handled, none]
  have waits : ∀ rd : DecodeQueue, rd.state.msg = .none → Idle w { w with rd := rd } := by
    intro rd idle
    exact ⟨rfl, by simp [handled, none, idle], rfl⟩
  have same := streamPoll_msg w.rd poll
  unfold receive
  rw [if_neg (by simp [none])]
  rcases polled : streamPoll w.rd poll with ⟨rd, ret⟩
  rw [polled] at same whole
  have idle : rd.state.msg = .none := same.trans none
  cases ret with
  | none => exact ⟨_, _, rfl, waits rd idle, by simp, by simp⟩
  | some got =>
      cases got with
      | false => exact ⟨_, _, rfl, waits rd idle, by simp, by simp⟩
      | true =>
          have heard := recv_heard c idle
          have some := whole rfl
          simp only at some ⊢
          rcases run : rd.recv (c.map Codec.decoder) with ⟨rd', ret'⟩
          rw [run] at heard some
          cases ret' with
          | error e => exact ⟨_, _, rfl, waits rd' (heard.failed e rfl), by simp, by simp⟩
          | ok n =>
              cases n with
              | zero => exact absurd rfl some
              | succ n =>
                  have msg := heard.said n rfl
                  refine ⟨_, _, rfl, ⟨rfl, ?_, rfl⟩, by simp, by simp⟩
                  rw [before]
                  simp only [handled]
                  rw [if_pos msg, List.dropLast_concat]

/-- A call that comes to no message ends and hands nothing over. -/
theorem streamSync_idle (env : Env) (fuel : Nat)
    (unread : Unread (c.map Codec.decoder) idlen s poll) :
    ∃ w' ended, streamSync env (c.map Codec.decoder) idlen (fuel + 1) poll s.waiting = (w', ended) ∧
      Idle s.waiting w' ∧ ended ≠ .running ∧ ended ≠ .undefined := by
  unfold streamSync
  by_cases empty : s.waiting.cmds.length = 0
  · rw [if_pos empty]
    exact ⟨_, _, rfl, .refl _, by simp, by simp⟩
  rw [if_neg empty]
  by_cases bare : idlen = 0
  · rw [if_pos bare]
    exact ⟨_, _, rfl, .refl _, by simp, by simp⟩
  rw [if_neg bare]
  unfold syncLoop
  by_cases done : waiting s.waiting.cmds = 0
  · rw [if_pos done]
    obtain ⟨n, ret⟩ := finish_ret s.waiting (waiting s.waiting.cmds)
    exact ⟨(finish _ _).1, .ret n, Prod.ext rfl ret, idle_finish _ _, by simp, by simp⟩
  rw [if_neg done]
  by_cases long : 255 < idlen
  · rw [if_pos long]
    exact ⟨_, _, rfl, .refl _, by simp, by simp⟩
  rw [if_neg long]
  obtain ⟨none, whole⟩ := unread done (by omega) (by omega)
  obtain ⟨w', ended, run, idle, ends⟩ :=
    receive_idle (c := c) none (waiting s.waiting.cmds) poll whole
  rw [run]
  exact ⟨w', ended, rfl, idle, ends⟩

theorem exact_step (h : Exact idlen cmds s) (unread : Unread (c.map Codec.decoder) idlen s poll) :
    Exact idlen cmds ((machine env (c.map Codec.decoder) idlen (fuel + 1)).step s poll).1 := by
  obtain ⟨w', ended, run, idle, goes, defined⟩ :=
    streamSync_idle env fuel unread
  simp only [machine, run]
  exact ⟨by simp [h.ended, goes, defined], by rw [idle.calls, idle.handled]; exact h.calls,
    by rw [idle.kept, idle.handled]; exact h.kept⟩

theorem exact_start (rd : DecodeQueue) (cmds : List Command) (none : rd.state.msg = none) :
    Exact idlen cmds (.start rd cmds) where
  ended := rfl
  calls := by simp [Session.start, handled, none, served]
  kept := by simp [Session.start, handled, none, served]

/-- What stays while a message is at hand: no path of the loop removes it. -/
structure Stays (w w' : Waiting) : Prop where
  msg : w'.rd.state.msg = w.rd.state.msg
  received : w'.received = w.received
  calls : w.calls.length ≤ w'.calls.length

theorem Stays.trans {w₁ w₂ w₃ : Waiting} (h : Stays w₁ w₂) (h' : Stays w₂ w₃) : Stays w₁ w₃ :=
  ⟨h'.msg.trans h.msg, h'.received.trans h.received, h.calls.trans h'.calls⟩

theorem stays_finish (w : Waiting) (count : Nat) : Stays w (finish w count).1 := by
  unfold finish
  split
  · exact ⟨rfl, rfl, Nat.le_refl _⟩
  · exact ⟨rfl, rfl, Nat.le_refl _⟩

theorem stays_identify (env : Env) (idlen : Nat) (w : Waiting) :
    Stays w (identify env idlen w).1 := by
  have same : Stays w { w with rd := w.rd.shift } := ⟨shift_msg _, rfl, Nat.le_refl _⟩
  unfold identify
  grind

/-- A handler call is noted. -/
theorem stays_deliver {count count' : Nat} {id : UInt64} {msg : List Byte} {ret : Int}
    (handed : deliver env w count id msg = some (w', count', ret)) :
    Stays w w' ∧ w'.calls.length = w.calls.length + 1 := by
  unfold deliver at handed
  simp only at handed
  split at handed
  · obtain ⟨rfl, _⟩ := Prod.mk.inj (Option.some.inj handed)
    exact ⟨⟨rfl, rfl, by simp⟩, by simp⟩
  · split at handed
    · obtain ⟨rfl, _⟩ := Prod.mk.inj (Option.some.inj handed)
      exact ⟨⟨rfl, rfl, by simp⟩, by simp⟩
    · cases handed

theorem receive_pending {dec : Option Decoder} (pending : w.rd.state.msg.isSome) (count : Nat)
    (poll : Poll) : receive dec w count poll = (w, none) := by
  unfold receive
  rw [if_pos pending]

theorem stays_loop {dec : Option Decoder} (pending : w.rd.state.msg.isSome) (count : Nat) :
    Stays w (syncLoop env dec idlen poll fuel w count).1 := by
  induction fuel generalizing w count with
  | zero => exact ⟨rfl, rfl, Nat.le_refl _⟩
  | succ fuel ih =>
      unfold syncLoop
      split
      · exact stays_finish w count
      · split
        · exact ⟨rfl, rfl, Nat.le_refl _⟩
        · rw [receive_pending pending]
          have found := stays_identify env idlen w
          rcases ident : identify env idlen w with ⟨w₁, ret⟩
          rw [ident] at found
          have still : w₁.rd.state.msg.isSome := by
            rw [found.msg]
            exact pending
          simp only [ident]
          cases ret with
          | error ended => exact found
          | ok reply =>
              obtain ⟨id, msg⟩ := reply
              simp only
              cases handed : deliver env w₁ count id msg with
              | none => exact found.trans (ih still count)
              | some next =>
                  obtain ⟨w₂, count', ret⟩ := next
                  obtain ⟨step, _⟩ := stays_deliver handed
                  have still' : w₂.rd.state.msg.isSome := by
                    rw [step.msg]
                    exact still
                  simp only
                  split
                  · exact found.trans (step.trans (stays_finish w₂ count'))
                  · exact found.trans (step.trans (ih still' count'))

/-- The call comes to a message that it hands to a handler. -/
def Hands (env : Env) (idlen : Nat) (w : Waiting) : Prop :=
  waiting w.cmds ≠ 0 ∧ 1 ≤ idlen ∧ idlen ≤ 255 ∧ w.rd.state.msg.isSome ∧
    ∃ w' id msg next, identify env idlen w = (w', .ok (id, msg)) ∧
      deliver env w' (waiting w.cmds) id msg = some next

/-- A message that is handed over is still there. -/
theorem not_exact_step {dec : Option Decoder} (h : Exact idlen cmds s)
    (hands : Hands env idlen s.waiting) :
    ¬ Exact idlen cmds ((machine env dec idlen (fuel + 1)).step s poll).1 := by
  obtain ⟨waits, low, high, pending, w₁, id, msg, ⟨w₂, count, ret⟩, ident, handed⟩ := hands
  have found := stays_identify env idlen s.waiting
  rw [ident] at found
  obtain ⟨step, more⟩ := stays_deliver handed
  have still : w₂.rd.state.msg.isSome := by
    rw [step.msg, found.msg]
    exact pending
  have table : s.waiting.cmds.length ≠ 0 := by
    intro empty
    rw [List.length_eq_zero_iff] at empty
    exact waits (by rw [empty]; rfl)
  have run : ∃ w', (streamSync env dec idlen (fuel + 1) poll s.waiting).1 = w' ∧ Stays w₂ w' := by
    refine ⟨_, rfl, ?_⟩
    unfold streamSync
    rw [if_neg table, if_neg (by omega)]
    unfold syncLoop
    rw [if_neg waits, if_neg (by omega), receive_pending pending]
    simp only [ident, handed]
    split
    · exact stays_finish w₂ count
    · exact stays_loop still count
  obtain ⟨w', run, stays⟩ := run
  intro exact
  have calls := exact.calls
  simp only [machine, run] at calls
  have whole := found.trans (step.trans stays)
  have same : handled w' = handled s.waiting := by
    simp only [handled, whole.msg, whole.received]
  rw [same, ← h.calls] at calls
  have grown := stays.calls
  have kept := found.calls
  simp only at kept
  rw [calls] at grown
  omega

end Calls

/-- Replies get where they belong as long as no call comes to one: those that are
    received wait for the next call, and the first call that hands one to a handler
    leaves it in the stream for the next handler. -/
theorem replies_handed_when (env : Env) (c : Option Codec) (idlen fuel : Nat) (rd : DecodeQueue)
    (cmds : List Command) (none : rd.state.msg = none) (polls : List Poll) :
    let M := machine env (c.map Codec.decoder) idlen (fuel + 1)
    (M.Meets (Unread (c.map Codec.decoder) idlen) (.start rd cmds) polls →
        ∀ js, js <+: polls → Exact idlen cmds (M.after (.start rd cmds) js)) ∧
      (Hands env idlen (M.after (.start rd cmds) polls).waiting →
        ∀ poll, ¬ (Exact idlen cmds (M.after (.start rd cmds) polls) ∧
          Exact idlen cmds (M.after (.start rd cmds) (polls ++ [poll])))) := by
  intro M
  constructor
  · rintro meets js ⟨ks, rfl⟩
    rw [Machine.meets_append] at meets
    exact M.invariant (fun s poll h unread => exact_step h unread) (exact_start rd cmds none) meets.1
  · rintro hands poll ⟨before, after⟩
    rw [Machine.after_append] at after
    exact not_exact_step before hands after

/-- A handler for the id 5 and one for all others; the variable for the id happens to
    hold the right one. -/
def tableExample : List Command := [⟨5, 11, 0⟩, ⟨0, 12, 0⟩]

def envExample : Env := ⟨fun n => if n = 0 then 0 else -1, fun _ => 5, fun _ => 0⟩

def streamExample : DecodeQueue := ⟨⟨fun _ => 0, 16, 0, 32, 0⟩, .init⟩

/-- The reply with the id 5 and one byte. -/
def replyExample : Poll := .input [3, 0x85, 0x41, 0] none false

theorem replies_handed_waits :
    Exact 1 tableExample ((machine envExample (some Codec.cobs.decoder) 1 4).after
      (.start streamExample tableExample) [replyExample]) := by
  refine (replies_handed_when envExample (some .cobs) 1 3 streamExample tableExample rfl
    [replyExample]).1 ⟨?_, trivial⟩ [replyExample] (List.prefix_refl _)
  intro _ _ _
  exact ⟨rfl, fun _ => by decide⟩

/-- One reply is handed to two handlers. -/
theorem reply_handed_twice :
    ¬ ∀ (env : Env) (c : Option Codec) (idlen fuel : Nat) (rd : DecodeQueue) (cmds : List Command),
      rd.state.msg = none → ∀ polls : List Poll,
        Exact idlen cmds ((machine env (c.map Codec.decoder) idlen (fuel + 1)).after
          (.start rd cmds) polls) := by
  intro claim
  have exact := claim envExample (some .cobs) 1 3 streamExample tableExample rfl
    [replyExample, .nothing true false]
  have calls := congrArg List.length exact.calls
  revert calls
  decide

end Mpt.Sync
