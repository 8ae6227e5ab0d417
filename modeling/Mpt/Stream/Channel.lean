import Mpt.Array.Coding
import Mpt.Queue.Deliver
import Mpt.Stream.Flush
import Mpt.Stream.Framing
import Mpt.Stream.Read

/-! # Messages from one stream to another

What a stream flushes to a file another one reads, in pieces of any size and while more
messages are pushed.  The pieces need not end where a message does: the last message can be
on its way in part, and it is the frame that ends it at once that the reader is then in.
-/

namespace Mpt

open Cobs

namespace DecodeQueue

/-- The part of `mpt_stream_poll` for a file that has input: the queue, what is left of the
    file, and the events that are kept. -/
def poll (mapped : Bool) (memory : Option Fresh) (reply : Nat) (d : DecodeQueue)
    (file : List Byte) : DecodeQueue × List Byte × Int :=
  let d := d.shift
  -- prepare input buffer
  let (data, left) :=
    if d.data.len = d.data.max then
      if mapped then (d.data, 0) else d.data.prepareSize memory 64
    else (d.data, d.data.max - d.data.len)
  if left = 0 then
    (⟨data, d.state⟩, file, -3)
  else
    -- read further input data
    match data.load file reply 0 with
    | none => (⟨data, d.state⟩, file, -3)
    | some (data, file) => (⟨data, d.state⟩, file, 1)

end DecodeQueue

/-- The stream that writes, the queue of the one that reads, the number of bytes of the file
    that were read, and the messages received. -/
structure Channel where
  out : Flow
  into : DecodeQueue
  taken : Nat
  received : List (List Byte)

namespace Channel

inductive Op where
  | push (src : List Byte)
  | flush (reply : Option Nat)
  | poll (memory : Option Fresh) (reply : Nat)
  | recv

/-- The bytes on their way. -/
def wire (s : Channel) : List Byte := s.out.file.drop s.taken

/-- Nothing is pushed and nothing is received yet. -/
def start (qu : EncodeQueue) (q : Queue) : Channel := ⟨⟨qu, [], []⟩, ⟨q, .init⟩, 0, []⟩

def step (c : Codec) (sink : Sink) (mapped : Bool) (s : Channel) : Op → Channel
  | .push src => { s with out := s.out.call (some c) sink (.push src) }
  | .flush reply => { s with out := s.out.call (some c) sink (.flush reply) }
  | .poll memory reply =>
      let (d, left, _) := s.into.poll mapped memory reply s.wire
      { s with into := d, taken := s.out.file.length - left.length }
  | .recv =>
      let (d, ret) := s.into.recv (some c.decoder)
      let received := match ret with
        | .ok 1 => s.received ++ [d.reported]
        | _ => s.received
      { s with into := d, received := received }

def machine (c : Codec) (sink : Sink) (mapped : Bool) : Machine Channel Op Unit :=
  ⟨fun s op => (s.step c sink mapped op, ())⟩

/-- The condition for a call.  The queue that reads is an object in memory. -/
def Fine (c : Codec) (s : Channel) : Op → Prop
  | .push src => Flow.Fine (some c) s.out (.push src)
  | .flush reply => Flow.Fine (some c) s.out (.flush reply)
  | .poll _ _ => s.into.data.max + 64 ≤ 2 ^ 64 - 8
  | .recv => needAt c.variant s.into.state.ctx s.into.rest ≤ s.into.gap

/-- The messages that were ended, and the data of the next one. -/
def took : List (List Byte) × List Byte → List Byte × Except Error Nat →
    List (List Byte) × List Byte
  | m, (_, .error _) => m
  | (msgs, cur), ([], .ok _) => (msgs ++ [cur], [])
  | (msgs, cur), (src, .ok n) => (msgs, cur ++ src.take n)

/-- What pushes make of their data. -/
def sent (log : List (List Byte × Except Error Nat)) : List (List Byte) × List Byte :=
  log.foldl took ([], [])

theorem sent_snoc (log : List (List Byte × Except Error Nat)) (call : List Byte × Except Error Nat) :
    sent (log ++ [call]) = took (sent log) call := by
  simp [sent]

theorem took_data (m : List (List Byte) × List Byte) {p : List Byte} (q : List Byte) (some_ : p ≠ []) :
    took m (p ++ q, .ok p.length) = (m.1, m.2 ++ p) := by
  cases p with
  | nil => exact absurd rfl some_
  | cons b p =>
      show (m.1, m.2 ++ (b :: (p ++ q)).take (p.length + 1)) = _
      rw [List.take_succ_cons, List.take_left]

/-! ## What is pushed -/

/-- The bytes that are finished are frames of the messages and blocks of the next one. -/
structure Framed (c : Codec) (log : List (List Byte × Except Error Nat)) (fin rest : List Byte)
    (fs : List Frame) (bs : List Block) (o : Option (List Byte)) : Prop where
  fin : fin = stream c.variant fs ++ encoded c.variant bs
  rest : rest = progress o
  frames : ∀ f ∈ fs, f.Ok c
  messages : fs.map Frame.message = (sent log).1
  blocks : ∀ b ∈ bs, b.Ok c.variant
  data : decoded bs ++ o.getD [] = (sent log).2
  short : Short c.variant (o.getD [])

variable {c : Codec} {log : List (List Byte × Except Error Nat)} {fin rest src fin' rest' : List Byte}
  {fs : List Frame} {bs : List Block} {o : Option (List Byte)} {ret : Except Error Nat}

theorem progress_inj {o o' : Option (List Byte)} (same : progress o = progress o') : o = o' := by
  cases o with
  | none =>
      cases o' with
      | none => rfl
      | some l => cases same
  | some l =>
      cases o' with
      | none => cases same
      | some l' => exact congrArg some (List.cons.inj same).2

theorem framed_start (c : Codec) : Framed c [] [] [] [] [] none where
  fin := rfl
  rest := rfl
  frames := fun f mem => by cases mem
  messages := rfl
  blocks := fun b mem => by cases mem
  data := rfl
  short := short_nil c.variant

/-- The bytes that end a message end its last frame. -/
theorem closing_closed {room : Nat} {out : List Byte} (closes : closing c room o = some out) :
    out = closed c.variant c.tail (o.getD []) ++ [0] := by
  cases o with
  | none =>
      simp only [closing, Option.ite_none_left_eq_some, Option.some.injEq] at closes
      rw [← closes.2]
      simp [closed, Inline, opened]
  | some o =>
      simp only [closing, Option.ite_none_left_eq_some, Option.some.injEq] at closes
      exact closes.2.symm

/-- One push. -/
theorem framed_push (framed : Framed c log fin rest fs bs o)
    (adds : EncodeQueue.Adds (some c) fin rest src ret fin' rest') :
    ∃ fs' bs' o', Framed c (log ++ [(src, ret)]) fin' rest' fs' bs' o' := by
  have open_ := framed.rest
  cases adds with
  | data raw => cases raw
  | full raw => cases raw
  | finish raw => cases raw
  | coded encoder next =>
      cases encoder
      obtain rfl := progress_inj open_.symm
      cases next with
      | full => 
          refine ⟨fs, bs, _, ?_, rfl, framed.frames, ?_, framed.blocks, ?_, framed.short⟩
          · rw [List.append_nil]
            exact framed.fin
          · rw [sent_snoc]
            exact framed.messages
          · rw [sent_snoc]
            exact framed.data
      | stuck =>
          refine ⟨fs, bs, _, ?_, rfl, framed.frames, ?_, framed.blocks, ?_, framed.short⟩
          · rw [List.append_nil]
            exact framed.fin
          · rw [sent_snoc]
            exact framed.messages
          · rw [sent_snoc]
            exact framed.data
      | @data _ p _ cut =>
          obtain ⟨blocks, short⟩ := split_ok c.variant _ p framed.short
          refine ⟨fs, bs ++ (split c.variant (o.getD []) p).1, _, ?_, rfl, framed.frames, ?_, ?_, ?_,
            short⟩
          · rw [framed.fin, encoded_append, List.append_assoc]
          · rw [sent_snoc, cut.read, took_data _ _ cut.some]
            exact framed.messages
          · intro b mem
            rcases List.mem_append.mp mem with old | new
            · exact framed.blocks b old
            · exact blocks b new
          · rw [sent_snoc, cut.read, took_data _ _ cut.some, decoded_append, List.append_assoc,
              Option.getD_some, decoded_split, ← List.append_assoc, framed.data]
      | close closes =>
          have blocks := Heap.Coding.lastFrame_ok framed.blocks framed.short
          refine ⟨fs ++ [Heap.Coding.lastFrame c bs (o.getD [])], [], none, ?_, rfl, ?_, ?_,
            (fun b mem => by cases mem), ?_, short_nil c.variant⟩
          · rw [framed.fin, closing_closed closes, List.append_assoc,
              ← Heap.Coding.lastFrame_bytes, stream_append]
            simp [stream]
          · intro f mem
            rcases List.mem_append.mp mem with old | new
            · exact framed.frames f old
            · rw [List.mem_singleton.mp new]
              exact blocks
          · rw [sent_snoc, List.map_append, framed.messages, List.map_singleton,
              Heap.Coding.lastFrame_message, framed.data]
            rfl
          · rw [sent_snoc]
            rfl

/-- All that was pushed. -/
theorem framed_of_encodes (encodes : Flow.Encodes (some c) [] [] log fin rest) :
    ∃ fs bs o, Framed c log fin rest fs bs o := by
  induction encodes with
  | start => exact ⟨[], [], none, framed_start c⟩
  | push _ adds ih =>
      obtain ⟨fs, bs, o, framed⟩ := ih
      exact framed_push framed adds

/-- What is finished starts a stream: that of the messages and of the next one, if it was
    ended at once. -/
theorem Framed.ahead (framed : Framed c log fin rest fs bs o) : ∃ f : Frame,
    (∀ g ∈ fs ++ [f], g.Ok c) ∧ fin <+: stream c.variant (fs ++ [f]) ∧
      fin.length < (stream c.variant (fs ++ [f])).length := by
  have whole : stream c.variant (fs ++ [Heap.Coding.lastFrame c bs (o.getD [])]) =
      fin ++ (closed c.variant c.tail (o.getD []) ++ [0]) := by
    rw [framed.fin, List.append_assoc, ← Heap.Coding.lastFrame_bytes, stream_append]
    simp [stream]
  refine ⟨Heap.Coding.lastFrame c bs (o.getD []), fun g mem => ?_, ?_, ?_⟩
  · rcases List.mem_append.mp mem with old | new
    · exact framed.frames g old
    · rw [List.mem_singleton.mp new]
      exact Heap.Coding.lastFrame_ok framed.blocks framed.short
  · rw [whole]
    exact List.prefix_append _ _
  · rw [whole]
    simp

/-! ## What is read -/

variable {d : DecodeQueue} {q : Queue} {memory : Option Fresh} {reply : Nat} {file : List Byte}

/-- The storage of a queue is there if it has a size. -/
def Stored (q : Queue) : Prop := q.base ≠ 0 ∨ q.max = 0

theorem crop_storage (q : Queue) (n : Nat) {q' : Queue} {ret : Nat}
    (cropped : q.crop 0 n = .ok (q', ret)) : q'.base = q.base ∧ q'.max = q.max := by
  rcases q.crop_front n with ⟨_, ret', eq⟩ | ⟨_, eq⟩
  · rw [eq] at cropped
    cases cropped
    exact ⟨rfl, rfl⟩
  · rw [eq] at cropped
    cases cropped

theorem shift_storage (d : DecodeQueue) :
    d.shift.data.base = d.data.base ∧ d.shift.data.max = d.data.max := by
  unfold DecodeQueue.shift
  split
  · exact ⟨rfl, rfl⟩
  · split
    · exact ⟨rfl, rfl⟩
    · split
      · exact ⟨rfl, rfl⟩
      · next cropped => exact crop_storage _ _ cropped

theorem pre_storage {len ret : Nat} {unset : Nat × Nat} {q' : Queue}
    (got : q.pre len unset = .ok (q', ret)) : q'.base = q.base ∧ q'.max = q.max := by
  unfold Queue.pre at got
  generalize q.empty = space at got
  cases space with
  | none =>
      simp only at got
      split at got
      · cases got
      · cases got
        exact ⟨rfl, rfl⟩
  | some space =>
      simp only at got
      split at got
      · cases got
      · cases got
        exact ⟨rfl, rfl⟩

/-- Receiving keeps the storage. -/
theorem recv_storage (dec : Decoder) (d : DecodeQueue) :
    (d.recv (some dec)).1.data.base = d.data.base ∧ (d.recv (some dec)).1.data.max = d.data.max := by
  unfold DecodeQueue.recv
  split
  · exact ⟨rfl, rfl⟩
  · simp only
    split
    · exact shift_storage _
    · split
      · exact ⟨rfl, rfl⟩
      · split
        · exact ⟨rfl, rfl⟩
        · next got =>
          have kept := pre_storage got
          split
          · exact kept
          · exact (shift_storage _).imp (·.trans kept.1) (·.trans kept.2)
    · exact ⟨rfl, rfl⟩

/-- Space for more is made, or nothing changes. -/
theorem prepare_content (v : q.Valid) (stored : Stored q) (small : q.max + 64 ≤ 2 ^ 64 - 8)
    (full : q.len = q.max) (memory : Option Fresh) :
    (q.prepareSize memory 64).1.Valid ∧ Stored (q.prepareSize memory 64).1 ∧
      (q.prepareSize memory 64).1.content = q.content := by
  have fits : 2 * 64 ≤ sizeMax := by decide
  rw [Queue.prepareSize_prepare v (by rw [full]; exact small)]
  cases memory with
  | none =>
      obtain ⟨p, eq, sound, content⟩ := Source.prepare_refused ⟨v, stored⟩ (by omega) fits
      rw [eq]
      exact ⟨sound.valid, sound.stored, content⟩
  | some f =>
      obtain ⟨q', left, eq, _, valid, base, content, _, _⟩ :=
        Queue.prepare_spec v stored f (Nat.zero_lt_succ 63) fits
      rw [eq]
      exact ⟨valid, .inl base, content⟩

/-- Bytes that are loaded are behind the content, and no longer in the file. -/
theorem load_behind (v : q.Valid) (stored : Stored q) {q' : Queue} {file' : List Byte}
    (loaded : q.load file reply 0 = some (q', file')) :
    q'.Valid ∧ Stored q' ∧ ∃ bytes, file = bytes ++ file' ∧ q'.content = q.content ++ bytes := by
  obtain ⟨sound, more, whole⟩ := Source.load_spec ⟨v, stored⟩ loaded
  refine ⟨sound.valid, sound.stored, ?_⟩
  rcases List.append_eq_append_iff.mp whole with ⟨as, eq, _⟩ | ⟨as, eq, rest⟩
  · have size := congrArg List.length eq
    rw [List.length_append, Queue.length_content, Queue.length_content] at size
    omega
  · exact ⟨as, rest, eq⟩

/-- What a poll reads is behind the content that is left. -/
structure Polled (d d' : DecodeQueue) (file file' : List Byte) : Prop where
  valid : d'.data.Valid
  stored : Stored d'.data
  state : d'.state = d.shift.state
  bytes : ∃ bytes, file = bytes ++ file' ∧ d'.data.content = d.shift.data.content ++ bytes

theorem poll_spec (v : d.shift.data.Valid) (stored : Stored d.data)
    (small : d.data.max + 64 ≤ 2 ^ 64 - 8) (mapped : Bool) :
    Polled d (d.poll mapped memory reply file).1 file (d.poll mapped memory reply file).2.1 := by
  obtain ⟨base, max⟩ := shift_storage d
  have stored' : Stored d.shift.data := by
    unfold Stored
    rw [base, max]
    exact stored
  rw [← max] at small
  have space : ∀ space : Queue × Nat, (if d.shift.data.len = d.shift.data.max then
      if mapped then (d.shift.data, 0) else d.shift.data.prepareSize memory 64
    else (d.shift.data, d.shift.data.max - d.shift.data.len)) = space →
      space.1.Valid ∧ Stored space.1 ∧ space.1.content = d.shift.data.content := by
    rintro space rfl
    split
    · next full =>
      split
      · exact ⟨v, stored', rfl⟩
      · exact prepare_content v stored' small full memory
    · exact ⟨v, stored', rfl⟩
  unfold DecodeQueue.poll
  simp only
  generalize eq : (if d.shift.data.len = d.shift.data.max then
      if mapped = true then (d.shift.data, 0) else d.shift.data.prepareSize memory 64
    else (d.shift.data, d.shift.data.max - d.shift.data.len)) = room at space
  obtain ⟨valid, stored, content⟩ := space room rfl
  split
  · exact ⟨valid, stored, rfl, [], rfl, by rw [content, List.append_nil]⟩
  · split
    · exact ⟨valid, stored, rfl, [], rfl, by rw [content, List.append_nil]⟩
    · next loaded =>
      obtain ⟨valid', stored'', bytes, whole, more⟩ := load_behind valid stored loaded
      exact ⟨valid', stored'', rfl, bytes, whole, by rw [more, content]⟩

/-- Bytes that come into the queue are no longer awaited. -/
theorem sound_more {n : Nat} {state : DecodeState} {q' : Queue} {bytes future : List Byte}
    {received : List (List Byte)}
    (h : DecodeQueue.Sound c fs n ⟨⟨q, state⟩, bytes ++ future, received⟩) (valid : q'.Valid)
    (content : q'.content = q.content ++ bytes) :
    DecodeQueue.Sound c fs n ⟨⟨q', state⟩, future, received⟩ := by
  refine ⟨h.count, h.delivered, valid, ?_⟩
  have size : q.content.length = q.len := Queue.length_content q
  have front : (q'.ring.take q.len).map q'.mem = q.ring.map q.mem := by
    rw [List.map_take, Queue.map_ring, Queue.map_ring, content, ← size, List.take_left]
  have behind : (q'.ring.drop q.len).map q'.mem = bytes := by
    rw [List.map_drop, Queue.map_ring, content, ← size, List.drop_left]
  have tracks := h.tracks.congr front
  simp only at tracks
  rw [← behind] at tracks
  have grown := tracks.grow
  rw [List.take_append_drop] at grown
  exact grown

/-- A poll goes on with the stream. -/
theorem sound_poll {n : Nat} {future file' : List Byte} {received : List (List Byte)}
    {d' : DecodeQueue}
    (h : DecodeQueue.Sound c fs n ⟨d, file ++ future, received⟩) (polled : Polled d d' file file') :
    DecodeQueue.Sound c fs n ⟨d', file' ++ future, received⟩ := by
  have shifted := DecodeQueue.shift_tracks h.valid h.tracks
  have start : DecodeQueue.Sound c fs n ⟨d.shift, file ++ future, received⟩ :=
    ⟨h.count, h.delivered, shifted.valid, shifted.tracks⟩
  obtain ⟨data, state⟩ := d'
  obtain ⟨bytes, whole, content⟩ := polled.bytes
  have same : state = d.shift.state := polled.state
  rw [same]
  rw [whole, List.append_assoc] at start
  exact sound_more start polled.valid content

/-! ## Calls in any order -/

/-- The writer left behind what it has to, and the reader follows any stream of frames that
    starts with what is in the file. -/
structure Follows (c : Codec) (max : Nat) (s : Channel) : Prop where
  left : Flow.Left (some c) max [] [] s.out
  taken : s.taken ≤ s.out.file.length
  stored : Stored s.into.data
  reads : ∀ fs : List Frame, (∀ f ∈ fs, f.Ok c) → s.out.file <+: stream c.variant fs →
    ∃ n, DecodeQueue.Sound c fs n ⟨s.into, (stream c.variant fs).drop s.taken, s.received⟩

variable {max : Nat} {s : Channel} {sink : Sink} {mapped : Bool}

theorem call_file (c : Option Codec) (sink : Sink) (s : Flow) (op : Flow.Op) :
    s.file <+: (s.call c sink op).file := by
  unfold Flow.call
  split
  · split
    · exact List.prefix_rfl
    · exact List.prefix_rfl
  · exact List.prefix_append _ _

/-- A call of the writer does not bother the reader. -/
theorem follows_write (h : Follows c max s) (small : max < sizeModulus) (backed : sink.Backed)
    {op : Flow.Op} (fine : Flow.Fine (some c) s.out op) :
    Follows c max { s with out := s.out.call (some c) sink op } := by
  have grows := call_file (some c) sink s.out op
  refine ⟨h.left.call small backed op fine, Nat.le_trans h.taken grows.length_le, h.stored, ?_⟩
  intro fs ok front
  exact h.reads fs ok (grows.trans front)

/-- The stream that the writer is in. -/
theorem Follows.ahead (h : Follows c max s) : ∃ (fs : List Frame) (f : Frame),
    fs.map Frame.message = (sent s.out.log).1 ∧ (∀ g ∈ fs ++ [f], g.Ok c) ∧
      s.out.file <+: stream c.variant (fs ++ [f]) ∧
      s.out.file.length < (stream c.variant (fs ++ [f])).length ∧
      (s.out.qu.state.done = 0 → (stream c.variant fs).length ≤ s.out.file.length) := by
  obtain ⟨fin, rest, kept, _, encodes⟩ := h.left
  obtain ⟨fs, bs, o, framed⟩ := framed_of_encodes encodes
  obtain ⟨f, ok, front, short⟩ := framed.ahead
  rw [List.length_append] at short
  refine ⟨fs, f, framed.messages, ok, (List.prefix_append _ _).trans front, by omega, fun none => ?_⟩
  have size := congrArg List.length framed.fin
  rw [List.length_append, List.length_append, ← kept.laid.done, none] at size
  omega

theorem drop_behind {l S : List Byte} (front : l <+: S) {n : Nat} (le : n ≤ l.length) :
    S.drop n = l.drop n ++ S.drop l.length := by
  obtain ⟨tail, rfl⟩ := front
  rw [List.drop_append_of_le_length le, List.drop_left]

/-- A poll takes bytes from the wire. -/
theorem follows_poll (h : Follows c max s) (fine : Fine c s (.poll memory reply)) :
    Follows c max (s.step c sink mapped (.poll memory reply)) := by
  have valid : s.into.shift.data.Valid := by
    obtain ⟨fs, f, _, ok, front, _⟩ := h.ahead
    obtain ⟨n, sound⟩ := h.reads (fs ++ [f]) ok front
    exact (DecodeQueue.shift_tracks sound.valid sound.tracks).valid
  have polled : Polled s.into (s.into.poll mapped memory reply s.wire).1 s.wire
      (s.into.poll mapped memory reply s.wire).2.1 := poll_spec valid h.stored fine mapped
  rcases run : s.into.poll mapped memory reply s.wire with ⟨d', left, events⟩
  rw [run] at polled
  obtain ⟨bytes, whole, _⟩ := polled.bytes
  have size := congrArg List.length whole
  have taken := h.taken
  simp only [wire, List.length_drop, List.length_append] at size
  have next : s.out.file.length - left.length = s.taken + bytes.length := by omega
  have rest : left = s.out.file.drop (s.taken + bytes.length) := by
    rw [← List.drop_drop]
    show left = s.wire.drop bytes.length
    rw [whole, List.drop_left]
  unfold step
  simp only [run, next]
  refine ⟨h.left, by simp only; omega, polled.stored, fun fs ok front => ?_⟩
  obtain ⟨n, sound⟩ := h.reads fs ok front
  rw [drop_behind front taken] at sound
  refine ⟨n, ?_⟩
  rw [drop_behind front (by simp only; omega), ← rest]
  exact sound_poll sound polled

/-- A receiver that gets on stays in the stream. -/
theorem follows_recv (h : Follows c max s) (fine : Fine c s .recv) :
    Follows c max (s.step c sink mapped .recv) := by
  refine ⟨h.left, h.taken, ?_, fun fs ok front => ?_⟩
  · obtain ⟨base, max⟩ := recv_storage c.decoder s.into
    unfold Stored
    show (s.into.recv (some c.decoder)).1.data.base ≠ 0 ∨
      (s.into.recv (some c.decoder)).1.data.max = 0
    rw [base, max]
    exact h.stored
  · obtain ⟨n, sound⟩ := h.reads fs ok front
    rcases DecodeQueue.sound_recv ok sound fine with ⟨_, _, next⟩ | ⟨_, _, next⟩
    · exact ⟨n + 1, next⟩
    · exact ⟨n, next⟩

theorem follows_step (h : Follows c max s) (small : max < sizeModulus) (backed : sink.Backed)
    {op : Op} (fine : Fine c s op) : Follows c max (s.step c sink mapped op) := by
  cases op with
  | push src => exact follows_write h small backed fine
  | flush reply => exact follows_write h small backed fine
  | poll memory reply => exact follows_poll h fine
  | recv => exact follows_recv h fine

theorem follows_start {qu : EncodeQueue} (empty : EncodeQueue.Kept (some c) qu [] [])
    (v : q.Valid) (nothing : q.len = 0) (stored : Stored q) :
    Follows c qu.data.max (start qu q) :=
  ⟨⟨[], [], empty, rfl, .start⟩, Nat.le_refl _, stored, fun _ _ _ =>
    ⟨0, DecodeQueue.sound_start v nothing⟩⟩

/-- The side that reads, with what it has to expect. -/
def session (s : Channel) (future : List Byte) : DecodeQueue.Session := ⟨s.into, future, s.received⟩

theorem meets_recv (k : Nat) (future : List Byte)
    (fine : (machine c sink mapped).Meets (Fine c) s (List.replicate k .recv)) :
    (DecodeQueue.machine c).Meets (DecodeQueue.Clean c) (s.session future)
      (List.replicate k .recv) := by
  induction k generalizing s with
  | zero => trivial
  | succ k ih => exact ⟨fine.1, ih fine.2⟩

theorem after_recv (c : Codec) (sink : Sink) (mapped : Bool) (s : Channel) (k : Nat) (future : List Byte) :
    ((machine c sink mapped).after s (List.replicate k .recv)).session future =
      (DecodeQueue.machine c).after (s.session future) (List.replicate k .recv) := by
  induction k generalizing s with
  | zero => rfl
  | succ k ih => exact ih (s.step c sink mapped .recv)

/-- Without frames to come there are no bytes to come. -/
theorem pending_nil {ctx : Nat} {part rest : List Byte} (pending : Pending c ctx part rest []) :
    rest = [] := by
  cases pending with
  | between => rfl

/-- In every run whose calls meet their conditions, in any order, the messages received are the
    first ones of those that were pushed.  Once everything finished was written and read, as
    many calls as there are messages outstanding receive them all. -/
theorem channel_delivers (c : Codec) (sink : Sink) (backed : sink.Backed) (mapped : Bool)
    {qu : EncodeQueue} (empty : EncodeQueue.Kept (some c) qu [] []) (small : qu.data.max < sizeModulus)
    {q : Queue} (v : q.Valid) (nothing : q.len = 0) (stored : Stored q) (ops : List Op)
    (fine : (machine c sink mapped).Meets (Fine c) (start qu q) ops) :
    let M := machine c sink mapped
    let s := M.after (start qu q) ops
    ∃ n ≤ (sent s.out.log).1.length, s.received = (sent s.out.log).1.take n ∧
      (s.wire = [] → s.out.qu.state.done = 0 →
        let rest := List.replicate ((sent s.out.log).1.length - n) Op.recv
        M.Meets (Fine c) s rest → (M.after s rest).received = (sent s.out.log).1) := by
  intro M s
  have follows : Follows c qu.data.max s :=
    Machine.invariant (M := M) (P := Follows c qu.data.max)
      (fun s op h fine => follows_step h small backed fine) (follows_start empty v nothing stored) fine
  obtain ⟨fs, f, messages, ok, front, short, all⟩ := follows.ahead
  obtain ⟨n, sound⟩ := follows.reads (fs ++ [f]) ok front
  have taken := follows.taken
  -- the delimiter of the last frame is not there
  have le : n ≤ fs.length := by
    have count := sound.count
    rw [List.length_append, List.length_singleton] at count
    by_contra more
    have done : (fs ++ [f]).drop n = [] := List.drop_eq_nil_of_le (by simp; omega)
    have pending := sound.tracks.pending
    rw [done] at pending
    have none := congrArg List.length (List.append_eq_nil_iff.mp (pending_nil pending)).2
    rw [List.length_drop, List.length_nil] at none
    omega
  have size : (sent s.out.log).1.length = fs.length := by rw [← messages, List.length_map]
  refine ⟨n, by rw [size]; exact le, ?_, fun wire done meets => ?_⟩
  · have front : (fs ++ [f]).take n = fs.take n := List.take_append_of_le_length le
    rw [← messages, ← List.map_take, ← front]
    exact sound.delivered
  · rw [size] at meets ⊢
    have read : s.out.file.length ≤ s.taken := List.drop_eq_nil_iff.mp wire
    have seen : ((stream c.variant (fs ++ [f])).drop s.taken).length ≤
        (stream c.variant ((fs ++ [f]).drop (n + (fs.length - n)))).length := by
      have total := all done
      rw [Nat.add_sub_cancel' le, List.drop_left, List.length_drop, stream_append, List.length_append]
      omega
    have received := (DecodeQueue.recv_complete ok (fs.length - n) sound (by simp; omega) seen
      (meets_recv _ _ meets)).delivered
    have same := congrArg DecodeQueue.Session.delivered
      (after_recv c sink mapped s (fs.length - n) ((stream c.variant (fs ++ [f])).drop s.taken))
    rw [Nat.add_sub_cancel' le, List.take_left, messages] at received
    exact same.trans received

/-- A byte is pushed and ended, and comes in two parts to a queue whose storage it wraps
    around. -/
def sample : List Op :=
  [.push [7], .push [], .flush (some 2), .poll none 8, .flush (some 8), .poll none 8, .recv]

theorem channel_delivers_byte :
    let s := (machine .cobs ⟨false, false, true⟩ false).after
      (start Stream.sampleQueue (DecodeQueue.emptyExample 6)) sample
    ∃ n ≤ (sent s.out.log).1.length, s.received = (sent s.out.log).1.take n := by
  intro s
  have ends : EncodeQueue.Clean .cobs (Stream.pushed [[7]]) [] := by
    have block : (Stream.pushed [[7]]).openBlock = some [7] := by decide
    refine ⟨.inr ?_, fun off => absurd rfl off⟩
    rw [block]
    unfold Regular
    rw [if_pos rfl]
    exact fun tail => absurd tail (by decide)
  have fine : (machine .cobs ⟨false, false, true⟩ false).Meets (Fine .cobs)
      (start Stream.sampleQueue (DecodeQueue.emptyExample 6)) sample := by
    refine ⟨⟨.inr (Stream.regular_byte _ _ _ _ (by decide)), fun off => absurd rfl off⟩, ends,
      .inl (by decide), ?_, .inl (by decide), ?_, ?_, trivial⟩
    · show 8 + 64 ≤ 2 ^ 64 - 8
      decide
    · show 8 + 64 ≤ 2 ^ 64 - 8
      decide
    · show needAt _ _ _ ≤ DecodeQueue.gap _
      decide +kernel
  have empty : EncodeQueue.Kept (some .cobs) Stream.sampleQueue [] [] :=
    ⟨none, EncodeQueue.empty_coded _ _ Nat.one_ne_zero (Nat.zero_le _), rfl⟩
  obtain ⟨n, le, received, _⟩ := channel_delivers .cobs ⟨false, false, true⟩ ⟨rfl, .inl rfl⟩ false
    empty (by decide) (q := DecodeQueue.emptyExample 6) ⟨by decide, by decide⟩ rfl
    (.inl (by decide)) sample fine
  exact ⟨n, le, received⟩

example : ((machine .cobs ⟨false, false, true⟩ false).after
    (start Stream.sampleQueue (DecodeQueue.emptyExample 6)) sample).received = [[7]] := by
  decide +kernel

end Channel

end Mpt
