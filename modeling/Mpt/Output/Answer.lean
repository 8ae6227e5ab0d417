import Mpt.Output.Connection
import Mpt.Run
import Mathlib.Data.List.Perm.Subperm

/-! # Answers to requests

A session registers handlers, sends messages and gets replies, in any order.  The
handlers that are registered should be answered once, each by a reply with its id.
Nothing removes a handler that is answered, and the address of the connection is not
set when a message is dispatched, so that is the case only while no reply reaches one.
-/

namespace Mpt.Output

open Event (Command)

/-- A handler called for a message. -/
structure Answer where
  ans : Command
  passed : List Byte
  msg : List Byte

/-- A connection with the handlers registered (id, function and argument) and those that
    were called with a reply. -/
structure Session where
  con : Connection
  registered : List (UInt64 × Nat × Nat)
  answered : List Answer

inductive Op where
  | await (ctl udata : Nat) (granted : Bool)
  | push (len : Nat) (srm : StreamResult)
  | arrive (sw : StreamWrapper) (stack : Mem Byte) (mid : UInt64) (msg : List Byte)

def Session.start (idlen : Nat) : Session := ⟨.init idlen, [], []⟩

def step (s : Session) : Op → Session
  | .await ctl udata granted =>
      match await s.con ctl udata granted with
      | (con, .error _) => { s with con := con }
      | (con, .ok _) =>
          let entry := if ctl ≠ 0 then (con.cid, ctl, udata) else (con.cid, logReply, con.cid.toNat)
          { s with con := con, registered := s.registered ++ [entry] }
  | .push len srm => { s with con := (push s.con len srm).1 }
  | .arrive sw stack mid msg =>
      match connectionDispatch s.con sw stack mid msg with
      | .answer ans passed => { s with answered := s.answered ++ [⟨ans, passed, msg⟩] }
      | _ => s

def machine : Machine Session Op Unit where
  step s op := (step s op, ())

/-- The id that a message carries, without the mark of a reply. -/
def carried (idlen : Nat) : List Byte → Nat
  | [] => 0
  | b :: msg => (msg.take (idlen - 1)).foldl (fun id b => id * 256 + b.toNat) (b.toNat % 128)

/-- A message with an id that has the mark of a reply. -/
def isReply (idlen : Nat) (msg : List Byte) : Bool :=
  decide (idlen ≠ 0 ∧ idlen ≤ msg.length ∧ msg.headD 0 &&& 0x80 ≠ 0)

/-- A message that reaches a registered handler carries an id that is pending.  The handler
    is the one for this id and gets the rest of the message, and then the id is not
    pending any more.  A reply is no request. -/
def Right (s : Session) : Op → Prop
  | .arrive sw stack mid msg =>
      match connectionDispatch s.con sw stack mid msg with
      | .answer ans passed =>
          ans.id.toNat = carried s.con.idlen msg ∧ commandGet s.con.wait ans.id = some ans ∧
            passed = msg.drop s.con.idlen ∧
            commandGet (step s (.arrive sw stack mid msg)).con.wait ans.id = none
      | .event _ _ _ => isReply s.con.idlen msg = false
      | .undefined => False
      | _ => True
  | _ => True

/-- A message finds a message in progress, or there is a connection where the unset address leads,
    no handler of it waits for the id in the unset variable if the message is a reply there, and
    no reply meets a connection without ids and an unset handler that is not null. -/
def Quiet (s : Session) : Op → Prop
  | .arrive sw _ mid msg =>
      s.con.active = false → ∃ con, sw.con.found s.con = some con ∧
        (isReply con.idlen msg = true → commandGet con.wait mid = none) ∧
        (isReply s.con.idlen msg = true → con.idlen = 0 → sw.cmd = 0)
  | _ => True

/-- Every registration is answered once at most. -/
def Once (s : Session) : Prop :=
  List.Subperm (s.answered.map fun a => (a.ans.id, a.ans.cmd, a.ans.arg)) s.registered

section Wrapper

variable {con : Connection} {cmd arg : Nat} {stack : Mem Byte} {mid : UInt64} {msg : List Byte}

/-- The first byte of an id is that of the message. -/
theorem first_byte (ids : con.idlen ≠ 0) (long : con.idlen ≤ msg.length) :
    (stack.write 0 (msg.take con.idlen)) 0 = msg.headD 0 := by
  cases msg with
  | nil => exact absurd (Nat.le_zero.mp long) ids
  | cons b msg =>
      obtain ⟨n, count⟩ := Nat.exists_eq_succ_of_ne_zero ids
      rw [count]
      exact Mem.write_inside stack 0 (b :: msg.take n) (Nat.succ_pos _)

/-- A reply goes to the handler for the id in the unset variable. -/
theorem streamWrapper_reply (reply : isReply con.idlen msg = true) :
    streamWrapper (some con) cmd arg stack mid msg =
      match commandGet con.wait mid with
      | none => .error .badValue
      | some ans => .answer ans (msg.drop con.idlen) := by
  obtain ⟨ids, long, mark⟩ := of_decide_eq_true reply
  have unset (m : Mem Byte) : (Message.buf2id m 0 con.idlen).stored = none :=
    Message.buf2id_stored m 0 (Nat.one_le_iff_ne_zero.mpr ids)
  unfold streamWrapper
  simp only [if_neg ids, if_neg (Nat.not_lt.mpr long), unset, first_byte ids long]
  rw [if_pos mark]
  rfl

/-- Everything else is too short, or a request. -/
theorem streamWrapper_request (other : isReply con.idlen msg = false) :
    con.idlen ≠ 0 ∧ streamWrapper (some con) cmd arg stack mid msg = .error .badValue ∨
      (con.idlen = 0 ∨ msg.headD 0 &&& 0x80 = 0) ∧
        ∃ passed, streamWrapper (some con) cmd arg stack mid msg = requested cmd arg passed := by
  unfold streamWrapper
  simp only
  by_cases none : con.idlen = 0
  · rw [if_pos none]
    exact .inr ⟨.inl none, msg, rfl⟩
  rw [if_neg none]
  by_cases short : msg.length < con.idlen
  · rw [if_pos short]
    exact .inl ⟨none, rfl⟩
  have long := Nat.le_of_not_lt short
  have plain : msg.headD 0 &&& 0x80 = 0 := by
    by_contra mark
    exact of_decide_eq_false other ⟨none, long, mark⟩
  rw [if_neg short, first_byte none long, if_neg (not_not.mpr plain)]
  exact .inr ⟨.inr plain, _, rfl⟩

end Wrapper

/-- A handler that is called is still waiting afterwards. -/
theorem answer_wrong {s : Session} {sw : StreamWrapper} {stack : Mem Byte} {mid : UInt64}
    {msg passed : List Byte} {ans : Command}
    (answer : connectionDispatch s.con sw stack mid msg = .answer ans passed) :
    ¬ Right s (.arrive sw stack mid msg) := by
  simp only [Right, answer]
  rintro ⟨_, before, _, after⟩
  -- the handlers are those from before
  have same : (step s (.arrive sw stack mid msg)).con = s.con := by simp only [step, answer]
  rw [same, before] at after
  cases after

/-- What comes of a message is right exactly when the message is quiet. -/
theorem right_iff_quiet (s : Session) (op : Op) : Right s op ↔ Quiet s op := by
  cases op with
  | await ctl udata granted => exact Iff.rfl
  | push len srm => exact Iff.rfl
  | arrive sw stack mid msg =>
      by_cases active : s.con.active = true
      · have waits : connectionDispatch s.con sw stack mid msg = .retry := if_pos active
        refine iff_of_true ?_ fun idle => ?_
        · simp only [Right, waits]
        · rw [active] at idle
          cases idle
      have idle := Bool.eq_false_iff.mpr active
      have calls : connectionDispatch s.con sw stack mid msg =
          streamWrapper (sw.con.found s.con) sw.cmd sw.arg stack mid msg := if_neg active
      cases found : sw.con.found s.con with
      | none =>
          rw [found] at calls
          refine iff_of_false ?_ fun quiet => ?_
          · simp only [Right, calls, streamWrapper, not_false_eq_true]
          · obtain ⟨con, there, _⟩ := quiet idle
            rw [found] at there
            cases there
      | some con =>
          rw [found] at calls
          have quiet_iff : Quiet s (.arrive sw stack mid msg) ↔
              (isReply con.idlen msg = true → commandGet con.wait mid = none) ∧
                (isReply s.con.idlen msg = true → con.idlen = 0 → sw.cmd = 0) := by
            simp only [Quiet, idle, found, forall_const, Option.some.injEq, exists_eq_left']
          rw [quiet_iff]
          cases reply : isReply con.idlen msg with
          | true =>
              obtain ⟨ids, _, _⟩ := of_decide_eq_true reply
              rw [streamWrapper_reply reply] at calls
              cases got : commandGet con.wait mid with
              | none =>
                  rw [got] at calls
                  refine iff_of_true ?_ ⟨fun _ => rfl, fun _ none => absurd none ids⟩
                  simp only [Right, calls]
              | some ans =>
                  rw [got] at calls
                  exact iff_of_false (answer_wrong calls) fun quiet => by cases quiet.1 rfl
          | false =>
              simp only [Bool.false_eq_true, false_implies, true_and]
              rcases streamWrapper_request reply with ⟨ids, failed⟩ | ⟨plain, passed, request⟩
              · rw [failed] at calls
                refine iff_of_true ?_ fun _ none => absurd none ids
                simp only [Right, calls]
              · rw [request] at calls
                by_cases null : sw.cmd = 0
                · have nobody : requested sw.cmd sw.arg passed = .done := if_pos null
                  rw [nobody] at calls
                  refine iff_of_true ?_ fun _ _ => null
                  simp only [Right, calls]
                · have called : requested sw.cmd sw.arg passed = .event sw.cmd sw.arg passed :=
                    if_neg null
                  rw [called] at calls
                  simp only [Right, calls, null, imp_false]
                  constructor
                  · intro other mark
                    rw [other] at mark
                    cases mark
                  · intro none
                    refine Bool.eq_false_iff.mpr fun mark => none mark ?_
                    exact plain.resolve_right (of_decide_eq_true mark).2.2

theorem answered_step {s : Session} {op : Op} (quiet : Quiet s op)
    (empty : s.answered = []) : (step s op).answered = [] := by
  have right := (right_iff_quiet s op).mpr quiet
  cases op with
  | await ctl udata granted =>
      simp only [step]
      split <;> exact empty
  | push len srm => exact empty
  | arrive sw stack mid msg =>
      simp only [step]
      split
      · next ans passed eq => exact absurd right (answer_wrong eq)
      · exact empty

/-- Requests are answered as they should in a run if and only if none is answered at all. -/
theorem answered_once (idlen : Nat) (ops : List Op) :
    machine.Meets Right (.start idlen) ops ∧ Once (machine.after (.start idlen) ops) ↔
      machine.Meets Quiet (.start idlen) ops := by
  constructor
  · rintro ⟨right, _⟩
    exact right.mono fun s op => (right_iff_quiet s op).mp
  · intro quiet
    refine ⟨quiet.mono fun s op => (right_iff_quiet s op).mpr, ?_⟩
    have empty := Machine.invariant (P := fun s : Session => s.answered = [])
      (fun s op empty quiet => answered_step quiet empty) rfl quiet
    unfold Once
    rw [empty]
    exact List.nil_subperm

/-- A reply that arrives twice reaches its handler twice, even if the unset address leads to the
    connection. -/
theorem answered_twice : ¬ ∀ idlen ops, machine.Meets Right (.start idlen) ops ∧
    Once (machine.after (.start idlen) ops) := by
  intro all
  have once := (all 2 [.await 5 6 true, .push 0 ⟨.ok 2, .ok 0⟩,
    .arrive ⟨.here, 0, 0⟩ (fun _ => 0) 1 [0x80, 1, 42],
    .arrive ⟨.here, 0, 0⟩ (fun _ => 0) 1 [0x80, 1, 42]]).2.length_le
  exact absurd once (by decide)

end Mpt.Output
