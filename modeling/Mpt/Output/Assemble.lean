import Mpt.Output.Datagram

/-! # Datagrams put together by pushes

A message on a socket is collected in the buffer of the connection, its id first, and leaves
it as one datagram.  A target address has its place at the start of the same buffer.
-/

namespace Mpt.Output

open Event (Slots)

/-- What is handed to `sendmsg`, and whether all of it is in the buffer. -/
structure Datagram where
  name : List Byte
  bytes : List Byte
  inside : Bool
  deriving DecidableEq

/-- The reasons of a push that fails. -/
inductive Refusal where
  | activeInput
  | system
  | library (e : Error)
  deriving DecidableEq

/-- `struct connection` on a socket, as far as output goes. -/
structure Pusher where
  idlen : Nat
  smax : Nat
  scurr : Nat
  active : Bool
  received : Bool
  buf : Option Store
  cid : UInt64
  wait : Option Slots
  calls : List (Nat × Nat)

structure PushResult where
  ret : Except Refusal Nat
  sent : List Datagram

/-- A call of `mpt_connection_push`: its data, the memory there is for the id and for the
    data, and the result of `sendmsg`, which may be none. -/
structure PushCall where
  src : Data
  idMem : Option (Mem Byte)
  srcMem : Option (Mem Byte)
  net : Option Nat

namespace Store

/-- The bytes of a buffer that there may be. -/
def content : Option Store → List Byte
  | none => []
  | some b => b.mem.read 0 b.used

/-- `mpt_array_append`, where there may be memory for it. -/
def append (buf : Option Store) (l : List Byte) (fresh : Option (Mem Byte)) : Option Store :=
  match buf with
  | none => fresh.map fun m => ⟨m.write 0 l, Heap.roomFor l.length, l.length⟩
  | some b =>
      if b.size - b.used < l.length then
        fresh.map fun m => ⟨(m.write 0 (b.mem.read 0 b.used)).write b.used l,
          Heap.roomFor (b.used + l.length), b.used + l.length⟩
      else
        some ⟨b.mem.write b.used l, b.size, b.used + l.length⟩

/-- The datagram of a buffer: as many bytes as there are in it, behind the place of an address
    where one is set, and the address. -/
def datagram (buf : Option Store) (smax scurr : Nat) : Datagram :=
  match buf with
  | none => ⟨[], [], true⟩
  | some b =>
      let off := if scurr ≠ 0 then smax else 0
      ⟨b.mem.read 0 scurr, b.mem.read off b.used, off + b.used ≤ b.size ∧ scurr ≤ b.size⟩

end Store

/-- `buf->_used = 0` -/
def Pusher.clearBuf (s : Pusher) : Pusher :=
  { s with buf := s.buf.map fun b => { b with used := 0 } }

/-- `mpt_outdata_push` with an active socket. -/
def outdataPush (s : Pusher) (src : Data) (fresh : Option (Mem Byte)) (net : Option Nat) :
    Pusher × PushResult :=
  -- existing new data
  if s.received then
    (s, ⟨.error .activeInput, []⟩)
  else if src.len ≠ 0 then
    match src with
    | .null len =>
        -- reset output data
        if len ≠ 1 then
          (s, ⟨.error (.library .badOperation), []⟩)
        else
          ({ s.clearBuf with active := false }, ⟨.ok 0, []⟩)
    | .bytes l =>
        -- require target address
        if s.smax ≠ 0 ∧ (s.scurr = 0 ∨ (Store.content s.buf).length < s.smax) then
          (s, ⟨.error (.library .badValue), []⟩)
        -- force atomic message id start
        else if s.idlen ≠ 0 ∧ s.active = false ∧ l.length ≠ s.idlen then
          (s, ⟨.error (.library .badValue), []⟩)
        else
          match Store.append s.buf l fresh with
          | none => (s, ⟨.error (.library .badOperation), []⟩)
          | some b => ({ s with buf := some b, active := true }, ⟨.ok l.length, []⟩)
  else
    let sent := Store.datagram s.buf s.smax s.scurr
    match net with
    | none => (s.clearBuf, ⟨.error .system, [sent]⟩)
    | some n => ({ s.clearBuf with active := false }, ⟨.ok n, [sent]⟩)

namespace Pusher

/-- `deregisterCommand` where there is an id. -/
def deregister (s : Pusher) : Pusher :=
  if s.cid ≠ 0 then
    match commandGet s.wait s.cid with
    | none => s
    | some ans => { s with calls := s.calls ++ [(ans.cmd, ans.arg)] }
  else
    s

/-- The bytes of the id. -/
def idBytes (s : Pusher) : List Byte :=
  (Message.id2buf s.cid (fun _ => 0) 0 s.idlen).1.read 0 s.idlen

/-- The start of a message in `mpt_connection_push`. -/
def startMessage (s : Pusher) (fresh : Option (Mem Byte)) : Pusher × Except Refusal Unit :=
  if s.active = false ∧ s.idlen ≠ 0 then
    -- create normalized ID
    if 64 < s.idlen then
      (s, .error (.library .badValue))
    else
      match (Message.id2buf s.cid (fun _ => 0) 0 s.idlen).2 with
      | .error e => (s, .error (.library e))
      | .ok _ =>
          match outdataPush s (.bytes s.idBytes) fresh none with
          | (s, ⟨.error e, _⟩) => (s.deregister, .error e)
          | (s, ⟨.ok _, _⟩) => (s, .ok ())
  else
    (s, .ok ())

/-- The payload in `mpt_connection_push`. -/
def payload (s : Pusher) (src : Data) (fresh : Option (Mem Byte)) (net : Option Nat) :
    Pusher × PushResult :=
  match outdataPush s src fresh net with
  | (s, ⟨.error e, sent⟩) =>
      let s := if s.active then (outdataPush s (.null 1) none none).1 else s
      (s.deregister, ⟨.error e, sent⟩)
  | (s, r) => (s, r)

/-- `mpt_connection_push` -/
def push (s : Pusher) (call : PushCall) : Pusher × PushResult :=
  match s.startMessage call.idMem with
  | (s, .error e) => (s, ⟨.error e, []⟩)
  | (s, .ok _) => s.payload call.src call.srcMem call.net

end Pusher

def pusher : Machine Pusher PushCall PushResult := ⟨Pusher.push⟩

/-! ## What the pushes are for -/

/-- The message that is open behind a call, where `message` was before it. -/
def openAfter (message : List Byte) (src : Data) (ret : Except Refusal Nat) : Option (List Byte) :=
  match src, ret with
  | .bytes (x :: l), .ok _ => some (message ++ x :: l)
  | _, _ => none

/-- The result of a call: a termination sends the message, or fails before, and nothing else
    is sent. -/
def SendsOnly (message : List Byte) (src : Data) (r : PushResult) : Prop :=
  if src.len = 0 then
    ∃ d, r.sent = [d] ∧ d.bytes = message ∧ d.inside = true
  else
    r.sent = []

/-- Whatever is sent in a run is the id with what was pushed behind it: `message` is what is
    open at first. -/
def Assembled (id : List Byte) : Option (List Byte) → List (Data × PushResult) → Prop
  | _, [] => True
  | message, (src, r) :: rest =>
      (SendsOnly (message.getD id) src r ∨ r.sent = [] ∧ ∃ e, r.ret = .error e) ∧
        Assembled id (openAfter (message.getD id) src r.ret) rest

/-- No message is open. -/
structure Begins (s : Pusher) : Prop where
  id : 0 < s.idlen
  idle : s.active = false
  stored : ∀ b, s.buf = some b → b.used ≤ b.size

/-- Nothing can be pushed: there is a datagram to read, or no place taken for an address. -/
def Refuses (s : Pusher) : Prop :=
  s.received = true ∨ s.active = false ∧ (Store.content s.buf).length < s.smax

/-- A message starts behind an address only, and is not sent to one. -/
def Clear (s : Pusher) (call : PushCall) : Prop :=
  Refuses s ∨ (s.active = false → (Store.content s.buf).length ≤ s.smax) ∧
    (call.src.len = 0 → s.scurr = 0)

/-- The buffer holds what is open. -/
structure Holds (id : List Byte) (s : Pusher) (message : Option (List Byte)) : Prop where
  idlen : 0 < s.idlen
  idBytes : s.idBytes = id
  stored : ∀ b, s.buf = some b → b.used ≤ b.size
  idle : message = none → s.active = false
  busy : ∀ l, message = some l → s.active = true ∧ s.received = false ∧ (s.scurr = 0 → s.smax = 0) ∧
    ∃ addr, addr.length = s.smax ∧ Store.content s.buf = addr ++ l

namespace Store

theorem append_content {buf : Option Store} {l : List Byte} {fresh : Option (Mem Byte)} {b : Store}
    (stored : ∀ b, buf = some b → b.used ≤ b.size) (eq : append buf l fresh = some b) :
    content (some b) = content buf ++ l ∧ b.used ≤ b.size := by
  unfold append at eq
  cases buf with
  | none =>
      obtain ⟨m, rfl, rfl⟩ := Option.map_eq_some_iff.mp eq
      exact ⟨Mem.read_write_self m 0 l, Heap.le_roomFor _⟩
  | some a =>
      have fits := stored a rfl
      have joined (m : Mem Byte) (same : m.read 0 a.used = a.mem.read 0 a.used) :
          (m.write a.used l).read 0 (a.used + l.length) = a.mem.read 0 a.used ++ l := by
        rw [Mem.read_append, Mem.read_write_disjoint m l (.inl (by omega)), Nat.zero_add,
          Mem.read_write_self, same]
      simp only at eq
      split at eq
      · obtain ⟨m, rfl, rfl⟩ := Option.map_eq_some_iff.mp eq
        refine ⟨joined _ ?_, Heap.le_roomFor _⟩
        have size : (a.mem.read 0 a.used).length = a.used := by simp
        have self := Mem.read_write_self m 0 (a.mem.read 0 a.used)
        rwa [size] at self
      · rename_i room
        cases eq
        exact ⟨joined _ rfl, by simp only; omega⟩

end Store

section Push

variable {s : Pusher} {id : List Byte} {fresh : Option (Mem Byte)} {net : Option Nat}

/-- Bytes are refused, or are put behind the others. -/
theorem outdataPush_bytes (s : Pusher) (fresh : Option (Mem Byte)) (net : Option Nat) {l : List Byte}
    (some_ : l ≠ []) :
    (∃ e, outdataPush s (.bytes l) fresh net = (s, ⟨.error e, []⟩)) ∨
      s.received = false ∧
        (s.smax = 0 ∨ s.scurr ≠ 0 ∧ s.smax ≤ (Store.content s.buf).length) ∧
        ∃ b, Store.append s.buf l fresh = some b ∧
          outdataPush s (.bytes l) fresh net =
            ({ s with buf := some b, active := true }, ⟨.ok l.length, []⟩) := by
  unfold outdataPush
  by_cases received : s.received = true
  · rw [if_pos received]
    exact .inl ⟨_, rfl⟩
  · have len : (Data.bytes l).len ≠ 0 := fun zero => some_ (List.length_eq_zero_iff.mp zero)
    rw [if_neg received, if_pos len]
    simp only
    split
    · exact .inl ⟨_, rfl⟩
    · rename_i addressed
      split
      · exact .inl ⟨_, rfl⟩
      · cases append : Store.append s.buf l fresh with
        | none => exact .inl ⟨_, rfl⟩
        | some b =>
            refine .inr ⟨by simpa using received, ?_, b, rfl, rfl⟩
            by_cases place : s.smax = 0
            · exact .inl place
            · exact .inr ⟨fun none => addressed ⟨place, .inl none⟩,
                Nat.le_of_not_lt fun short => addressed ⟨place, .inr short⟩⟩

theorem deregister_eq (s : Pusher) : ∃ calls, s.deregister = { s with calls := calls } := by
  unfold Pusher.deregister
  split
  · split
    · exact ⟨s.calls, rfl⟩
    · exact ⟨_, rfl⟩
  · exact ⟨s.calls, rfl⟩

/-- Calls of handlers change nothing in the buffer. -/
theorem Holds.deregister {message : Option (List Byte)} (h : Holds id s message) :
    Holds id s.deregister message := by
  obtain ⟨calls, eq⟩ := deregister_eq s
  rw [eq]
  exact ⟨h.idlen, h.idBytes, h.stored, h.idle, h.busy⟩

/-- An empty buffer is left, with nothing open. -/
theorem Holds.reset {message : Option (List Byte)} (h : Holds id s message) :
    Holds id { s.clearBuf with active := false } none := by
  refine ⟨h.idlen, h.idBytes, ?_, fun _ => rfl, fun _ none => nomatch none⟩
  intro b eq
  obtain ⟨a, _, rfl⟩ := Option.map_eq_some_iff.mp eq
  exact Nat.zero_le _

/-- Bytes behind an open message belong to it. -/
theorem Holds.append {l l' : List Byte} {b : Store} (h : Holds id s (some l))
    (eq : Store.append s.buf l' fresh = some b) :
    Holds id { s with buf := some b, active := true } (some (l ++ l')) := by
  obtain ⟨_, received, place, addr, size, content⟩ := h.busy l rfl
  obtain ⟨joined, fits⟩ := Store.append_content h.stored eq
  refine ⟨h.idlen, h.idBytes, ?_, (fun none => nomatch none), ?_⟩
  · intro a same
    cases same
    exact fits
  · intro m same
    cases same
    exact ⟨rfl, received, place, addr, size, by rw [joined, content, List.append_assoc]⟩

theorem length_idBytes (s : Pusher) : s.idBytes.length = s.idlen := by
  simp [Pusher.idBytes]

/-- A message starts with its id, or is refused. -/
theorem startMessage_spec (fresh : Option (Mem Byte)) {message : Option (List Byte)}
    (h : Holds id s message)
    (clear : s.active = false → ¬ Refuses s → (Store.content s.buf).length ≤ s.smax) :
    (∃ s' e, s.startMessage fresh = (s', .error e) ∧ Holds id s' none) ∨
      ∃ s', s.startMessage fresh = (s', .ok ()) ∧ Holds id s' (some (message.getD id)) ∧
        s'.scurr = s.scurr ∧ ¬ Refuses s := by
  unfold Pusher.startMessage
  by_cases active : s.active = true
  · rw [if_neg (by simp [active])]
    cases message with
    | none => exact absurd active (by simp [h.idle rfl])
    | some l =>
        obtain ⟨_, received, _⟩ := h.busy l rfl
        refine .inr ⟨s, rfl, h, rfl, ?_⟩
        rintro (unread | ⟨idle, _⟩)
        · exact absurd unread (by simp [received])
        · exact absurd active (by simp [idle])
  · have idle : s.active = false := by simpa using active
    have idlen := h.idlen
    have none : message = none := by
      cases message with
      | none => rfl
      | some l => exact absurd (h.busy l rfl).1 active
    subst none
    rw [if_pos ⟨idle, by omega⟩]
    split
    · exact .inl ⟨s, _, rfl, h⟩
    · split
      · exact .inl ⟨s, _, rfl, h⟩
      · have some_ : s.idBytes ≠ [] := fun nil => by
          have size := length_idBytes s
          rw [nil, List.length_nil] at size
          omega
        rcases outdataPush_bytes s fresh none some_ with
          ⟨e, eq⟩ | ⟨received, place, b, append, eq⟩
        · rw [eq]
          exact .inl ⟨_, e, rfl, h.deregister⟩
        · rw [eq]
          have free : ¬ Refuses s := by
            rintro (unread | ⟨_, short⟩)
            · exact absurd unread (by simp [received])
            · omega
          have empty := clear idle free
          obtain ⟨joined, fits⟩ := Store.append_content h.stored append
          refine .inr ⟨_, rfl, ⟨idlen, h.idBytes, ?_, (fun none => nomatch none), ?_⟩, rfl, free⟩
          · intro a same
            cases same
            exact fits
          · intro l same
            cases same
            have exact_ : (Store.content s.buf).length = s.smax := by omega
            refine ⟨rfl, received, ?_, Store.content s.buf, exact_, ?_⟩
            · intro none
              rcases place with place | ⟨addr, _⟩
              · exact place
              · exact absurd none addr
            · rw [joined, h.idBytes]
              rfl

/-- The datagram of an open message has its bytes. -/
theorem Holds.datagram {l : List Byte} (h : Holds id s (some l)) (direct : s.scurr = 0) :
    (Store.datagram s.buf s.smax s.scurr).bytes = l ∧
      (Store.datagram s.buf s.smax s.scurr).inside = true := by
  obtain ⟨_, _, place, addr, size, content⟩ := h.busy l rfl
  have none : addr = [] := List.length_eq_zero_iff.mp (size.trans (place direct))
  rw [none, List.nil_append] at content
  rw [direct]
  cases buf : s.buf with
  | none =>
      rw [buf] at content
      exact ⟨content, rfl⟩
  | some b =>
      rw [buf] at content
      have fits := h.stored b buf
      exact ⟨content, by simpa [Store.datagram] using fits⟩

/-- What a failed push leaves is cleared where a message is open. -/
theorem reset_spec (h : Holds id { s.clearBuf with active := false } none)
    (unread : s.received = false) :
    Holds id (if s.active then (outdataPush s (.null 1) none none).1 else s) none ∨
      s.active = false := by
  by_cases active : s.active = true
  · have eq : (outdataPush s (.null 1) none none).1 = { s.clearBuf with active := false } := by
      unfold outdataPush
      rw [if_neg (by simp [unread])]
      rfl
    rw [if_pos active, eq]
    exact .inl h
  · exact .inr (by simpa using active)

theorem openAfter_error (message : List Byte) (src : Data) (e : Refusal) :
    openAfter message src (.error e) = none := by
  unfold openAfter
  split
  · rename_i no
    cases no
  · rfl

theorem openAfter_end (message : List Byte) {src : Data} (zero : src.len = 0)
    (ret : Except Refusal Nat) : openAfter message src ret = none := by
  unfold openAfter
  split
  · cases zero
  · rfl

/-- A push that fails while a message is open ends the message. -/
theorem payload_failed {src : Data} {s' : Pusher} {e : Refusal} {d : List Datagram}
    (eq : outdataPush s src fresh net = (s', ⟨.error e, d⟩)) (busy : s'.active = true)
    (unread : s'.received = false) (idle : Holds id { s'.clearBuf with active := false } none) :
    (s.payload src fresh net).2 = ⟨.error e, d⟩ ∧ Holds id (s.payload src fresh net).1 none := by
  unfold Pusher.payload
  rw [eq]
  refine ⟨rfl, Holds.deregister ?_⟩
  rcases reset_spec idle unread with clean | no
  · exact clean
  · exact absurd busy (by simp [no])

/-- The end of a message sends it and nothing else. -/
theorem payload_end {l : List Byte} (h : Holds id s (some l)) {src : Data} (zero : src.len = 0)
    (direct : s.scurr = 0) :
    (∃ d, (s.payload src fresh net).2.sent = [d] ∧ d.bytes = l ∧ d.inside = true) ∧
      Holds id (s.payload src fresh net).1 none := by
  obtain ⟨active, received, _⟩ := h.busy l rfl
  obtain ⟨bytes, inside⟩ := h.datagram direct
  cases net with
  | none =>
      have eq : outdataPush s src fresh none =
          (s.clearBuf, ⟨.error .system, [Store.datagram s.buf s.smax s.scurr]⟩) := by
        unfold outdataPush
        rw [if_neg (by simp [received]), if_neg (by simpa using zero)]
      obtain ⟨same, left⟩ := payload_failed eq active received h.reset.reset
      exact ⟨⟨_, congrArg PushResult.sent same, bytes, inside⟩, left⟩
  | some n =>
      have eq : outdataPush s src fresh (some n) =
          ({ s.clearBuf with active := false }, ⟨.ok n, [Store.datagram s.buf s.smax s.scurr]⟩) := by
        unfold outdataPush
        rw [if_neg (by simp [received]), if_neg (by simpa using zero)]
      unfold Pusher.payload
      rw [eq]
      exact ⟨⟨_, rfl, bytes, inside⟩, h.reset⟩

/-- What a push of data leaves open, and what it sends. -/
theorem payload_spec (fresh : Option (Mem Byte)) (net : Option Nat) {l : List Byte}
    (h : Holds id s (some l)) (src : Data)
    (direct : src.len = 0 → s.scurr = 0) :
    SendsOnly l src (s.payload src fresh net).2 ∧
      Holds id (s.payload src fresh net).1 (openAfter l src (s.payload src fresh net).2.ret) := by
  obtain ⟨active, received, _⟩ := h.busy l rfl
  unfold SendsOnly
  by_cases zero : src.len = 0
  · rw [if_pos zero, openAfter_end l zero]
    exact payload_end h zero (direct zero)
  · rw [if_neg zero]
    match src with
    | .bytes [] => exact absurd rfl zero
    | .bytes (x :: m) =>
        rcases outdataPush_bytes s fresh net (List.cons_ne_nil x m) with
          ⟨e, eq⟩ | ⟨_, _, b, append, eq⟩
        · obtain ⟨same, left⟩ := payload_failed eq active received h.reset
          rw [same, openAfter_error]
          exact ⟨rfl, left⟩
        · unfold Pusher.payload
          rw [eq]
          exact ⟨rfl, h.append append⟩
    | .null n =>
        by_cases one : n = 1
        · have eq : outdataPush s (.null n) fresh net =
              ({ s.clearBuf with active := false }, ⟨.ok 0, []⟩) := by
            unfold outdataPush
            rw [if_neg (by simp [received]), one]
            rfl
          unfold Pusher.payload
          rw [eq]
          exact ⟨rfl, h.reset⟩
        · have eq : outdataPush s (.null n) fresh net =
              (s, ⟨.error (.library .badOperation), []⟩) := by
            unfold outdataPush
            rw [if_neg (by simp [received]), if_pos zero]
            simp only
            rw [if_pos one]
          obtain ⟨same, left⟩ := payload_failed eq active received h.reset
          rw [same, openAfter_error]
          exact ⟨rfl, left⟩

end Push

section Run

/-- A call keeps what is open in the buffer, and sends nothing else. -/
theorem push_spec {s : Pusher} {id : List Byte} {message : Option (List Byte)}
    (h : Holds id s message) (call : PushCall) (clear : Clear s call) :
    (SendsOnly (message.getD id) call.src (s.push call).2 ∨
        (s.push call).2.sent = [] ∧ ∃ e, (s.push call).2.ret = .error e) ∧
      Holds id (s.push call).1 (openAfter (message.getD id) call.src (s.push call).2.ret) := by
  have direct (free : ¬ Refuses s) : (s.active = false → (Store.content s.buf).length ≤ s.smax) ∧
      (call.src.len = 0 → s.scurr = 0) := by
    rcases clear with refuses | clear
    · exact absurd refuses free
    · exact clear
  unfold Pusher.push
  rcases startMessage_spec call.idMem h fun idle free => (direct free).1 idle with
    ⟨s', e, eq, left⟩ | ⟨s', eq, open_, scurr, free⟩
  · rw [eq]
    refine ⟨.inr ⟨rfl, e, rfl⟩, ?_⟩
    simp only [openAfter_error]
    exact left
  · rw [eq]
    obtain ⟨sends, left⟩ := payload_spec call.srcMem call.net open_ call.src
      fun zero => scurr.trans ((direct free).2 zero)
    exact ⟨.inl sends, left⟩

theorem run_spec {s : Pusher} {id : List Byte} {message : Option (List Byte)}
    (h : Holds id s message) (calls : List PushCall) (clear : pusher.Meets Clear s calls) :
    Assembled id message ((calls.map PushCall.src).zip (pusher.outputs s calls)) := by
  induction calls generalizing s message with
  | nil => trivial
  | cons call calls ih =>
      obtain ⟨sends, left⟩ := push_spec h call clear.1
      exact ⟨sends, ih left clear.2⟩

/-- Whatever is pushed: as long as no message starts behind something that is left in the
    buffer, and none is sent while a target address is set, each datagram is the id with what
    was pushed since, and lies in the buffer. -/
theorem datagrams_assembled (s : Pusher) (calls : List PushCall) (start : Begins s)
    (clear : pusher.Meets Clear s calls) :
    Assembled s.idBytes none ((calls.map PushCall.src).zip (pusher.outputs s calls)) := by
  have h : Holds s.idBytes s none := ⟨start.id, rfl, start.stored, fun _ => start.idle, fun _ none => nomatch none⟩
  exact run_spec h calls clear

end Run

/-- A connection with ids of two bytes, and no address. -/
def plainPusher : Pusher := ⟨2, 0, 0, false, false, none, 5, none, []⟩

/-- Two messages, where the first one is not sent. -/
def twoMessages : List PushCall :=
  [⟨.bytes [65, 66], some fun _ => 0, none, none⟩, ⟨.null 0, none, none, none⟩,
    ⟨.bytes [67], none, none, none⟩, ⟨.null 0, none, none, some 3⟩]

theorem two_assembled : Assembled plainPusher.idBytes none
    ((twoMessages.map PushCall.src).zip (pusher.outputs plainPusher twoMessages)) := by
  refine datagrams_assembled plainPusher twoMessages ⟨by decide, rfl, fun _ none => nomatch none⟩ ?_
  refine ⟨.inr ⟨?_, ?_⟩, .inr ⟨?_, ?_⟩, .inr ⟨?_, ?_⟩, .inr ⟨?_, ?_⟩, trivial⟩ <;> decide

/-- A connection to an address of two bytes. -/
def addressedPusher : Pusher := ⟨2, 2, 2, false, false, some ⟨fun _ => 7, 64, 2⟩, 5, none, []⟩

/-- The datagram has two bytes more than id and data. -/
theorem address_shifts : ¬ ∀ (s : Pusher) (calls : List PushCall), Begins s →
    Assembled s.idBytes none ((calls.map PushCall.src).zip (pusher.outputs s calls)) := by
  intro all
  have stored : ∀ b, addressedPusher.buf = some b → b.used ≤ b.size := by
    intro b eq
    cases eq
    decide
  obtain ⟨_, ⟨sends | ⟨none, _⟩, _⟩⟩ := all addressedPusher
    [⟨.bytes [65], none, none, none⟩, ⟨.null 0, none, none, some 4⟩] ⟨by decide, rfl, stored⟩
  · obtain ⟨d, sent, bytes, _⟩ := sends
    have sizes := congrArg (List.map fun d : Datagram => d.bytes.length) sent
    rw [List.map_singleton, bytes] at sizes
    exact absurd sizes (by decide)
  · exact absurd none (by decide)

end Mpt.Output
