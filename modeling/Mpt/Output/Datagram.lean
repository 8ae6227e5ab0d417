import Mpt.Output.Answer
import Mpt.Event.Reply

/-! # Datagrams on a connection

A connection on a socket receives one datagram after another into its buffer and
takes id and payload from there.  The buffer is raw and the connection is its only
holder, so its content is addressed by offsets.  What is received, what the
handler does and which memory is granted is a parameter.
-/

namespace Mpt.Output

open Event (Command Slots ReplyWorld ReplyEnv)

/-- The buffer of `struct outdata`, allocated for it. -/
structure Store where
  mem : Mem Byte
  size : Nat
  used : Nat

/-- `struct connection` on a socket.  `reply` is `_rctx`, `sent` counts the datagrams sent
    without it, `fault` notes that storage was used that does not exist. -/
structure Socket where
  idlen : Nat
  smax : Nat
  scurr : Nat
  active : Bool
  received : Bool
  buf : Option Store
  wait : Option Slots
  reply : Option ReplyWorld
  sent : Nat
  fault : Bool

/-- `MPT_CONNECTION_INIT` with a socket. -/
def Socket.init (idlen smax : Nat) : Socket :=
  ⟨idlen, smax, 0, false, false, none, none, none, 0, false⟩

/-- `mpt_array_slice` for content up to `total`, where there is memory for it. -/
def slice (fresh : Mem Byte) (buf : Option Store) (total : Nat) : Store :=
  match buf with
  | none => ⟨fresh.write 0 (List.replicate total 0), Heap.roomFor total, total⟩
  | some b =>
      let b : Store :=
        if b.size < total then
          ⟨fresh.write 0 (b.mem.read 0 b.used), Heap.roomFor (max b.used total), b.used⟩
        else
          b
      if b.used < total then
        ⟨b.mem.write b.used (List.replicate (total - b.used) 0), b.size, total⟩
      else
        b

/-- `MPT_MAX_UDP_SIZE` -/
def maxUdpSize : Nat := 0x10000

/-- The size of a source address. -/
def post (s : Socket) : Nat := if s.idlen = 0 then 0 else s.smax

/-- The offset that `mpt_outdata_recv` asks for. -/
def place (s : Socket) : Nat := maxUdpSize + post s

/-- What `mpt_outdata_recv` fails with. -/
inductive RecvError where
  | missingData
  /-- `MPT_MESGERR(InProgress)` -/
  | inProgress
  deriving Repr, DecidableEq

/-- `mpt_outdata_recv` of the datagram `d` from `addr`. -/
def outdataRecv (s : Socket) (d addr : List Byte) (fresh : Mem Byte) :
    Socket × Except RecvError Nat :=
  if s.active then
    (s, .error .inProgress)
  else
    let at_ := place s
    let b := slice fresh s.buf at_
    -- data and address behind the content that is provided
    let d := d.take (b.size - post s)
    let addr := addr.take (post s)
    let mem := (b.mem.write at_ d).write (at_ + maxUdpSize) addr
    let fault := s.fault || decide (b.size < at_ + d.length) ||
      decide (addr ≠ [] ∧ b.size < at_ + maxUdpSize + addr.length)
    if d.length < s.idlen then
      ({ s with received := false, buf := some { b with mem := mem }, fault := fault },
        .error .missingData)
    else
      let mem := mem.move (at_ + d.length) (at_ + maxUdpSize) addr.length
      ({ s with
        received := true
        scurr := addr.length
        buf := some { b with mem := mem, used := d.length }
        fault := fault }, .ok (post s))

/-- What `mpt_connection_dispatch` comes to. -/
inductive Seen where
  /-- `MPT_EVENTFLAG(Retry)` -/
  | retry
  /-- the handler is called without a message -/
  | plain
  /-- datagram too small -/
  | small
  /-- a reply is handed to the handler for its id -/
  | answer (ans : Command) (msg : List Byte)
  /-- there is no such handler -/
  | unknown
  /-- the id or its context is not valid -/
  | bad
  /-- the handler is called with a message -/
  | event (msg : List Byte)

/-- What the handler does: the answer it gives itself and its result. -/
structure Handling where
  answer : Option (List Byte)
  ret : Byte

/-- What the code behind the connection and the system do in a call: `mid` is what the
    variable for an id holds, `granted` whether there is memory for a reply context. -/
structure Around where
  env : ReplyEnv
  handling : Handling
  mid : UInt64
  granted : Bool

/-- Whether the reply data has an id: in the place of its length there is a part of the
    interface pointer where it is the reply context. -/
def pendingReply (w : ReplyWorld) : Event.Part → Bool
  | .ctx => true
  | .data => match w.ctx with
    | none => false
    | some ctx => decide (ctx.data.len ≠ 0)

/-- A request with its reply context: the handler is called, and there is a generic
    answer where it gives none. -/
def request (a : Around) (w : ReplyWorld) (id msg : List Byte) : ReplyWorld × Seen :=
  match Event.contextConv .replyDataPtr with
  | none => (w, .event msg)
  | some rd =>
      match w.set rd (.bytes id) with
      | (w, .error _) => (w, .bad)
      | (w, .ok _) =>
          let w := match a.handling.answer with
            | some answer => (w.contextSet a.env (some answer)).1
            | none => w
          -- generic answer
          let w := if pendingReply w rd then
              (w.contextSet a.env (some [0, a.handling.ret])).1
            else
              w
          (w, .event msg)

/-- `mpt_connection_dispatch` for a handler. -/
def dispatch (s : Socket) (a : Around) : Socket × Seen :=
  if s.active then
    (s, .retry)
  else if s.received = false then
    (s, .retry)
  else
    let s := { s with received := false }
    match s.buf with
    | none => (s, .plain)
    | some b =>
        let hlen := s.idlen + s.smax
        if b.used < hlen then
          -- sent where the id fits into the address
          ({ s with sent := if s.smax < s.idlen then s.sent else s.sent + 1 }, .small)
        else
          let msg := b.mem.read hlen (b.used - hlen)
          if s.idlen = 0 then
            (s, .event msg)
          else if b.mem 0 &&& 0x80 ≠ 0 then
            let mem := b.mem.set 0 (b.mem 0 &&& 0x7f)
            let s := { s with buf := some { b with mem := mem } }
            let id := Message.buf2id mem s.smax s.idlen
            match id.ret with
            | .error _ => ({ s with buf := some ⟨mem, b.size, s.smax⟩ }, .bad)
            | .ok _ =>
                match commandGet s.wait (id.stored.getD a.mid) with
                | none => (s, .unknown)
                | some ans => (s, .answer ans msg)
          else
            let id := b.mem.read 0 s.idlen
            if id.any (· ≠ 0) then
              let ctx := match s.reply with
                | some w => some w
                | none => if a.granted then some (ReplyWorld.deferrable hlen true 1) else none
              match ctx with
              | none => (s, .event msg)
              | some w =>
                  match request a w id msg with
                  | (w, seen) => ({ s with reply := some w }, seen)
            else
              (s, .event msg)

/-! ## What the exchange of datagrams is for -/

/-- The answers sent so far. -/
def answers (s : Socket) : Nat := s.sent + ((s.reply.map fun w => w.sends.length).getD 0)

/-- Nothing was used that does not exist. -/
def Intact (s : Socket) : Prop := s.fault = false ∧ ∀ w, s.reply = some w → w.fault = false

/-- The handler that waits for an id. -/
def waitsFor (s : Socket) (id : Nat) : Option Command :=
  (s.wait.map Slots.cmds).getD [] |>.find? fun c => c.cmd ≠ 0 ∧ c.id.toNat = id

/-- The datagram is a reply. -/
def Replies (d : List Byte) : Prop := d.headD 0 &&& 0x80 ≠ 0

instance (d : List Byte) : Decidable (Replies d) := inferInstanceAs (Decidable (_ ≠ _))

/-- What becomes of the datagram `d` as it should be: its first bytes are the id.  A reply
    goes to the handler that waits for it, which waits no longer; another datagram goes
    to the handler for events, and is answered once if its id is not zero. -/
def Exchanged (s s' : Socket) (seen : Seen) (d : List Byte) : Prop :=
  let msg := d.drop s.idlen
  if Replies d then
    match waitsFor s (carried s.idlen d) with
    | some c => seen = .answer c msg ∧ waitsFor s' (carried s.idlen d) = none
    | none => ∀ m, seen ≠ .event m ∧ ∀ c, seen ≠ .answer c m
  else
    seen = .event msg ∧
      answers s' = answers s + if ((d.take s.idlen).any (· ≠ 0)) = true then 1 else 0

/-- A handler is registered or removed, or a datagram comes in and is dispatched. -/
inductive SocketOp where
  | register (wait : Option Slots)
  | datagram (d addr : List Byte) (fresh : Mem Byte) (a : Around)

/-- One datagram. -/
def exchange (s : Socket) (d addr : List Byte) (fresh : Mem Byte) (a : Around) : Socket × Seen :=
  dispatch (outdataRecv s d addr fresh).1 a

def socketMachine : Machine Socket SocketOp Seen where
  step s
    | .register wait => ({ s with wait := wait }, .retry)
    | .datagram d addr fresh a => exchange s d addr fresh a

/-- The datagram has an id and becomes what it should. -/
def Proper (s : Socket) : SocketOp → Prop
  | .register _ => True
  | .datagram d addr fresh a =>
      s.idlen ≤ d.length ∧
        Exchanged s (exchange s d addr fresh a).1 (exchange s d addr fresh a).2 d ∧
          Intact (exchange s d addr fresh a).1

/-- The datagram has an id, it fits behind the space that is provided and it is nothing but zeros,
    without an address; or it is a reply nobody waits for, and too short. -/
def Harmless (s : Socket) : SocketOp → Prop
  | .register _ => True
  | .datagram d addr _ _ =>
      s.idlen ≤ d.length ∧
        place s + d.length ≤ Heap.roomFor (place s) ∧
          (s.smax = 0 ∧ (∀ b ∈ d, b = 0) ∨
            addr.take s.smax = [] ∧ d.length < s.idlen + s.smax ∧ Replies d ∧
              waitsFor s (carried s.idlen d) = none)

section Received

variable {s : Socket} {d addr : List Byte} {fresh : Mem Byte} {a : Around}

/-- A connection that nothing but such datagrams came to: all content that is provided
    for the next one is zero. -/
structure Blank (s : Socket) : Prop where
  id : 1 ≤ s.idlen
  active : s.active = false
  reply : s.reply = none
  intact : s.fault = false
  size : ∀ b, s.buf = some b → b.size = Heap.roomFor (place s)
  zero : ∀ b, s.buf = some b → ∀ i, i < place s → b.mem i = 0

theorem blank_init {idlen : Nat} (id : 1 ≤ idlen) (smax : Nat) : Blank (.init idlen smax) :=
  ⟨id, rfl, rfl, rfl, nofun, nofun⟩

/-- Behind the content that is provided there is less room than for another one. -/
theorem roomFor_le (n : Nat) : Heap.roomFor n ≤ n + 127 := by
  unfold Heap.roomFor
  omega

theorem write_zeros (m : Mem Byte) (a n i : Nat) (old : i < a → m i = 0) (inside : i < a + n) :
    m.write a (List.replicate n 0) i = 0 := by
  by_cases before : i < a
  · rw [Mem.write_below _ _ before]
    exact old before
  · have place : i - a < n := by omega
    simp [Mem.write, Nat.le_of_not_lt before, place]

/-- What is provided is zero and leaves the same room. -/
theorem slice_blank (fresh : Mem Byte) (h : Blank s) :
    (slice fresh s.buf (place s)).size = Heap.roomFor (place s) ∧
      ∀ i, i < place s → (slice fresh s.buf (place s)).mem i = 0 := by
  have room := Heap.le_roomFor (place s)
  unfold slice
  cases buf : s.buf with
  | none => exact ⟨rfl, fun i inside => write_zeros fresh 0 (place s) i nofun (by omega)⟩
  | some b =>
      have size := h.size b buf
      have zero := h.zero b buf
      simp only [if_neg (by omega : ¬ b.size < place s)]
      by_cases less : b.used < place s
      · rw [if_pos less]
        refine ⟨size, fun i inside => write_zeros _ _ _ _ ?_ (by omega)⟩
        intro before
        exact zero i inside
      · rw [if_neg less]
        exact ⟨size, zero⟩

/-- The datagram and its address do not reach the content below. -/
theorem recv_mem (h : Blank s) (i j n : Nat) (data addr : List Byte) (inside : i < place s)
    (behind : place s ≤ j) (src : Nat) :
    ((((slice fresh s.buf (place s)).mem.write (place s) data).write (place s + maxUdpSize)
      addr).move j src n) i = 0 := by
  unfold Mem.move
  rw [Mem.write_below _ _ (by omega), Mem.write_below _ _ (by omega),
    Mem.write_below _ _ inside]
  exact (slice_blank _ h).2 i inside

/-- Where the datagram does not fit, or comes with an address, storage is used that does
    not exist. -/
theorem recv_fault (fresh : Mem Byte) (h : Blank s) : (outdataRecv s d addr fresh).1.fault = false ↔
    place s + d.length ≤ Heap.roomFor (place s) ∧ addr.take (post s) = [] := by
  have room := Heap.le_roomFor (place s)
  have rest := roomFor_le (place s)
  have size := (slice_blank fresh h).1
  have below : post s + maxUdpSize = place s := Nat.add_comm _ _
  have fault : (outdataRecv s d addr fresh).1.fault =
      (decide (Heap.roomFor (place s) < place s + (d.take (Heap.roomFor (place s) - post s)).length) ||
        decide (addr.take (post s) ≠ [] ∧
          Heap.roomFor (place s) < place s + maxUdpSize + (addr.take (post s)).length)) := by
    unfold outdataRecv
    rw [if_neg (by simp [h.active])]
    simp only [size]
    split <;> simp [h.intact]
  rw [fault]
  simp only [Bool.or_eq_false_iff, decide_eq_false_iff_not, List.length_take, Nat.not_lt, not_and]
  unfold maxUdpSize at *
  constructor
  · rintro ⟨fits, near⟩
    refine ⟨by omega, ?_⟩
    by_contra some
    have reach := near some
    omega
  · rintro ⟨fits, none⟩
    exact ⟨by omega, fun some => absurd none some⟩

/-- A datagram that fits leaves zeros where it is looked for. -/
theorem recv_blank (addr : List Byte) (fresh : Mem Byte) (h : Blank s) (id : s.idlen ≤ d.length)
    (fits : place s + d.length ≤ Heap.roomFor (place s)) :
    ∃ mem scurr fault, (outdataRecv s d addr fresh).1 =
      { s with
        received := true
        scurr := scurr
        buf := some ⟨mem, Heap.roomFor (place s), d.length⟩
        fault := fault } ∧
      ∀ i, i < place s → mem i = 0 := by
  have size := (slice_blank fresh h).1
  have below : post s + maxUdpSize = place s := Nat.add_comm _ _
  have whole : d.take (Heap.roomFor (place s) - post s) = d := by
    apply List.take_of_length_le
    omega
  unfold outdataRecv
  rw [if_neg (by simp [h.active])]
  simp only [size, whole]
  rw [if_neg (by omega)]
  exact ⟨_, _, _, rfl, fun i inside => recv_mem h i _ _ _ _ inside (by omega) _⟩

/-- Nothing but zeros is dispatched. -/
theorem dispatch_blank {mem : Mem Byte} {size used : Nat} (id : 1 ≤ s.idlen)
    (active : s.active = false) (received : s.received = true)
    (buf : s.buf = some ⟨mem, size, used⟩) (short : used ≤ place s)
    (zero : ∀ i, i < place s → mem i = 0) :
    dispatch s a = ({ s with
        received := false
        sent := if used < s.idlen + s.smax ∧ s.idlen ≤ s.smax then s.sent + 1 else s.sent },
      if used < s.idlen + s.smax then .small
      else .event (List.replicate (used - (s.idlen + s.smax)) 0)) := by
  obtain ⟨idlen, smax, scurr, act, rec, buf', wait, reply, sent, fault⟩ := s
  simp only at id active received buf short zero
  subst active received buf
  unfold dispatch
  simp only [Bool.false_eq_true, if_false, reduceCtorEq]
  by_cases small : used < idlen + smax
  · have count : (if smax < idlen then sent else sent + 1) =
        if idlen ≤ smax then sent + 1 else sent := by grind
    simp only [small, if_true, true_and, count]
  · have first : mem 0 = 0 := zero 0 (by simp only [place, maxUdpSize]; omega)
    have payload : mem.read (idlen + smax) (used - (idlen + smax)) =
        List.replicate (used - (idlen + smax)) 0 := by
      apply List.eq_replicate_iff.mpr
      refine ⟨Mem.length_read .., ?_⟩
      intro b hb
      simp only [Mem.read, List.mem_map, List.mem_range] at hb
      obtain ⟨i, inside, rfl⟩ := hb
      exact zero _ (by omega)
    have bare : (mem.read 0 idlen).any (· ≠ 0) = false := by
      simp only [Mem.read, List.any_map, List.any_eq_false, List.mem_range, Function.comp_apply]
      intro i inside
      simp [zero i (by omega)]
    simp only [small, false_and, if_false, if_neg (by omega : idlen ≠ 0), first, bare,
      payload]
    simp

theorem dispatch_fault (s : Socket) (a : Around) : (dispatch s a).1.fault = s.fault := by
  unfold dispatch
  grind

/-- What comes of a datagram that fits. -/
theorem exchange_blank (addr : List Byte) (fresh : Mem Byte) (a : Around) (h : Blank s) (id : s.idlen ≤ d.length)
    (fits : place s + d.length ≤ Heap.roomFor (place s)) :
    ∃ mem scurr sent, exchange s d addr fresh a =
        ({ s with
            received := false
            scurr := scurr
            buf := some ⟨mem, Heap.roomFor (place s), d.length⟩
            sent := sent
            fault := (outdataRecv s d addr fresh).1.fault },
          if d.length < s.idlen + s.smax then .small
          else .event (List.replicate (d.length - (s.idlen + s.smax)) 0)) ∧
      (∀ i, i < place s → mem i = 0) ∧ (s.idlen + s.smax ≤ d.length → sent = s.sent) := by
  obtain ⟨mem, scurr, fault, recv, zero⟩ := recv_blank addr fresh h id fits
  have rest := roomFor_le (place s)
  have wide : maxUdpSize ≤ place s := Nat.le_add_right _ _
  have short : d.length ≤ place s := by
    have near : d.length ≤ 127 := by omega
    exact near.trans (Nat.le_trans (by decide) wide)
  have run := dispatch_blank (a := a) (s := { s with
      received := true
      scurr := scurr
      buf := some ⟨mem, Heap.roomFor (place s), d.length⟩
      fault := fault }) h.id h.active rfl rfl short zero
  unfold exchange
  rw [recv, run]
  refine ⟨mem, scurr, _, rfl, zero, ?_⟩
  intro long
  exact if_neg fun short => Nat.not_lt.mpr long short.1

/-- The connection stays one that only such datagrams came to. -/
theorem exchange_keeps (h : Blank s) (id : s.idlen ≤ d.length)
    (fits : place s + d.length ≤ Heap.roomFor (place s)) (near : addr.take (post s) = []) :
    Blank (exchange s d addr fresh a).1 := by
  obtain ⟨mem, scurr, sent, run, zero, _⟩ :=
    exchange_blank addr fresh a h id fits
  rw [run]
  refine ⟨h.id, h.active, h.reply, (recv_fault _ h).mpr ⟨fits, near⟩, ?_, ?_⟩
  · intro b buf
    rw [← Option.some.inj buf]
    rfl
  · intro b buf
    rw [← Option.some.inj buf]
    exact zero

theorem exchange_intact (h : Blank s) (id : s.idlen ≤ d.length) :
    Intact (exchange s d addr fresh a).1 ↔
      place s + d.length ≤ Heap.roomFor (place s) ∧ addr.take (post s) = [] := by
  rw [← recv_fault fresh h]
  constructor
  · rintro ⟨intact, _⟩
    exact (dispatch_fault _ a).symm.trans intact
  · intro intact
    obtain ⟨fits, _⟩ := (recv_fault _ h).mp intact
    obtain ⟨mem, scurr, sent, run, _⟩ :=
      exchange_blank addr fresh a h id fits
    rw [run]
    refine ⟨intact, ?_⟩
    intro w reply
    exact absurd (h.reply.symm.trans reply) (by simp)

/-- Zeros are what a datagram of zeros should be taken for, and no other. -/
theorem exchanged_zeros (s' : Socket) (same : s'.sent = s.sent) (none : s.reply = none)
    (none' : s'.reply = .none) (long : s.idlen + s.smax ≤ d.length) :
    Exchanged s s' (.event (List.replicate (d.length - (s.idlen + s.smax)) 0)) d ↔
      s.smax = 0 ∧ ∀ b ∈ d, b = 0 := by
  have count : answers s' = answers s := by simp [answers, none, none', same]
  unfold Exchanged
  simp only
  constructor
  · intro done
    by_cases replies : Replies d
    · rw [if_pos replies] at done
      split at done
      · exact absurd done.1 (by simp)
      · exact absurd rfl (done _).1
    · rw [if_neg replies] at done
      obtain ⟨payload, sent⟩ := done
      have rest := Seen.event.inj payload
      have size := congrArg List.length rest
      simp only [List.length_replicate, List.length_drop] at size
      have id : ¬ (d.take s.idlen).any (· ≠ 0) = true := by
        intro some
        rw [if_pos some] at sent
        omega
      refine ⟨by omega, ?_⟩
      intro b hb
      rw [← List.take_append_drop s.idlen d, List.mem_append] at hb
      rcases hb with front | back
      · by_contra some
        exact id (List.any_eq_true.mpr ⟨b, front, by simpa using some⟩)
      · rw [← rest] at back
        exact (List.mem_replicate.mp back).2
  · rintro ⟨bare, zeros⟩
    have replies : ¬ Replies d := by
      unfold Replies
      cases d with
      | nil => decide
      | cons b d => simp [zeros b (by simp)]
    have id : ¬ (d.take s.idlen).any (· ≠ 0) = true := by
      intro some
      obtain ⟨b, front, other⟩ := List.any_eq_true.mp some
      simp [zeros b (List.mem_of_mem_take front)] at other
    rw [if_neg replies, if_neg id, count]
    refine ⟨?_, by omega⟩
    congr 1
    symm
    apply List.eq_replicate_iff.mpr
    refine ⟨by simp [bare], ?_⟩
    intro b back
    exact zeros b (List.mem_of_mem_drop back)

/-- A datagram that is too short is dropped, which is right for a reply that nobody
    waits for. -/
theorem exchanged_small {s' : Socket} : Exchanged s s' .small d ↔
    Replies d ∧ waitsFor s (carried s.idlen d) = none := by
  unfold Exchanged
  simp only
  by_cases replies : Replies d
  · rw [if_pos replies]
    cases wait : waitsFor s (carried s.idlen d) with
    | none => simp [replies]
    | some c => simp
  · rw [if_neg replies]
    simp [replies]

theorem proper_iff (h : Blank s) (op : SocketOp) : Proper s op ↔ Harmless s op := by
  cases op with
  | register wait => exact Iff.rfl
  | datagram d addr fresh a =>
      unfold Proper Harmless
      refine and_congr_right ?_
      intro id
      have low := h.id
      have stored : post s = s.smax := if_neg (by omega)
      rw [exchange_intact h id, stored]
      by_cases fits : place s + d.length ≤ Heap.roomFor (place s)
      · obtain ⟨mem, scurr, sent, run, _, same⟩ :=
          exchange_blank addr fresh a h id fits
        rw [run]
        simp only [fits, true_and]
        by_cases small : d.length < s.idlen + s.smax
        · have wide : s.smax ≠ 0 := by omega
          simp only [small, if_true, exchanged_small, wide, false_and, false_or, true_and]
          tauto
        · have zeros := exchanged_zeros (d := d) { s with
              received := false
              scurr := scurr
              buf := some ⟨mem, Heap.roomFor (place s), d.length⟩
              sent := sent
              fault := (outdataRecv s d addr fresh).1.fault } (same (by omega)) h.reply h.reply
            (by omega)
          rw [if_neg small, zeros]
          simp only [small, false_and, and_false, or_false, and_iff_left_iff_imp]
          rintro ⟨bare, _⟩
          rw [bare, List.take_zero]
      · simp only [fits, false_and, and_false]

theorem blank_step (h : Blank s) (op : SocketOp) (harmless : Harmless s op) :
    Blank (socketMachine.step s op).1 := by
  cases op with
  | register wait => exact ⟨h.id, h.active, h.reply, h.intact, h.size, h.zero⟩
  | datagram d addr fresh a =>
      obtain ⟨id, fits, rest⟩ := harmless
      refine exchange_keeps h id fits ?_
      have stored : post s = s.smax := if_neg (by have low := h.id; omega)
      rw [stored]
      rcases rest with ⟨bare, _⟩ | ⟨near, _⟩
      · rw [bare, List.take_zero]
      · exact near

end Received

/-- In a run the datagrams become what they should exactly if all of them are harmless. -/
theorem datagrams_exchanged_iff {idlen : Nat} (id : 1 ≤ idlen) (smax : Nat) (ops : List SocketOp) :
    socketMachine.Meets Proper (.init idlen smax) ops ↔
      socketMachine.Meets Harmless (.init idlen smax) ops := by
  have same : ∀ s op, Blank s → (Harmless s op ↔ Proper s op) :=
    fun s op h => (proper_iff h op).symm
  have keep : ∀ s op, Blank s → Harmless s op → Blank (socketMachine.step s op).1 :=
    fun s op h harmless => blank_step h op harmless
  exact (Machine.meets_congr same keep (blank_init id smax) ops).symm

/-- One byte of id and one of data, both zero. -/
theorem datagrams_exchanged_zero :
    socketMachine.Meets Proper (.init 1 0) [.datagram [0, 0] [] (fun _ => 7)
      ⟨⟨fun _ => true, fun _ => true⟩, ⟨none, 0⟩, 0, true⟩] := by
  have zeros : ∀ b ∈ ([0, 0] : List Byte), b = 0 := by simp
  exact (datagrams_exchanged_iff (Nat.le_refl 1) 0 _).mpr
    ⟨⟨by decide, by decide, .inl ⟨rfl, zeros⟩⟩, trivial⟩

/-- A datagram without an id and with one byte is handed over as a zero. -/
theorem datagram_not_read : ¬ ∀ (idlen smax : Nat) (ops : List SocketOp), 1 ≤ idlen →
    (∀ d addr fresh a, .datagram d addr fresh a ∈ ops → idlen ≤ d.length) →
      socketMachine.Meets Proper (.init idlen smax) ops := by
  intro claim
  have long : ∀ d addr fresh a, SocketOp.datagram d addr fresh a ∈
      [SocketOp.datagram [0, 42] [] (fun _ => 0)
        ⟨⟨fun _ => true, fun _ => true⟩, ⟨none, 0⟩, 0, true⟩] → 1 ≤ d.length := by
    intro d addr fresh a one
    cases List.mem_singleton.mp one
    decide
  have proper := (claim 1 0 _ (Nat.le_refl 1) long).1
  rw [proper_iff (blank_init (Nat.le_refl 1) 0)] at proper
  obtain ⟨_, _, ⟨_, zeros⟩ | ⟨_, short, _⟩⟩ := proper
  · exact absurd (zeros 42 (by simp)) (by decide)
  · exact absurd short (by decide)

end Mpt.Output
