import Mpt.Stream.Framing
import Mpt.Event.Reply
import Mpt.Message.Id
import Mpt.Run

/-! # Replies on a stream input

An input from `mpt_stream_input` takes an id from the start of each message and has
one place for it.  The handler replies through the stream under this id, and where
it does not there is a generic answer.
-/

namespace Mpt.Input

open Cobs (Codec)
open Mpt.Stream (Idle CleanParts partsOf bytesOf replyParts roundsFor)

/-- `struct streamInput`, with the reply data `max`, `len` and `val`. -/
structure StreamInput where
  data : Stream
  writable : Bool
  max : Nat
  len : Nat
  val : List Byte

/-- What the handler does: the messages it replies with, and its result. -/
structure Handling where
  replies : List (Option Parts)
  ret : Int

/-- `streamReply` -/
def streamReply (memory : Memory) (rounds : Nat) (srm : StreamInput) (msg : Option Parts) :
    Option (StreamInput × Except Error Nat) :=
  -- reply already sent
  if srm.len = 0 then
    some (srm, .error .badArgument)
  else
    match srm.data.reply memory rounds (.bytes (srm.val.take srm.len)) msg with
    | none => none
    | some (data, .ok ret) => some ({ srm with data := data, len := 0 }, .ok ret)
    | some (data, .error _) => some ({ srm with data := data }, .error .badArgument)

/-- The replies of the handler. -/
def callHandler (memory : Memory) (rounds : Nat) :
    StreamInput → (replies : List (Option Parts)) → Option StreamInput
  | srm, [] => some srm
  | srm, msg :: replies =>
      match streamReply memory rounds srm msg with
      | none => none
      | some (srm, _) => callHandler memory rounds srm replies

/-- `streamMessage`; there is no result where the code aborts. -/
def streamMessage (memory : Memory) (rounds : Nat) (srm : StreamInput) (msg : Parts)
    (hd : Handling) : Option (StreamInput × Except Error Int) :=
  if srm.max = 0 then
    some (srm, .ok hd.ret)
  else
    -- consume message ID
    let id := msg.bytes.take srm.max
    let srm := { srm with val := id ++ srm.val.drop id.length }
    if id.length < srm.max then
      some (srm, .error .badValue)
    else if srm.val.headD 0 &&& 0x80 ≠ 0 then
      -- reply indicated
      let srm := { srm with val := Event.clearFlag srm.val }
      match (Message.buf2id (fun i => srm.val.getD i 0) 0 srm.max).ret with
      | .error _ => some (srm, .error .badValue)
      | .ok used => some (srm, if 8 < used then .error .badValue else .ok hd.ret)
    else if srm.writable = false then
      -- unable to reply to message
      some (srm, .ok hd.ret)
    else if (srm.val.take srm.max).any (· ≠ 0) then
      match callHandler memory rounds { srm with len := srm.max } hd.replies with
      | none => none
      | some srm =>
          if srm.len = 0 then
            some (srm, .ok hd.ret)
          else
            -- the header of an answer is set up, but it is the message that is sent
            match srm.data.reply memory rounds (.bytes (srm.val.take srm.len)) (some msg) with
            | none => none
            | some (data, _) => some ({ srm with data := data }, .ok hd.ret)
    else
      some (srm, .ok hd.ret)

/-! ## What replies are for -/

/-- The message has an id that is not zero and without the flag of a reply. -/
def Request (idlen : Nat) (msg : Parts) : Prop :=
  idlen ≤ msg.bytes.length ∧ msg.bytes.headD 0 &&& 0x80 = 0 ∧
    (msg.bytes.take idlen).any (· ≠ 0) = true

instance (idlen : Nat) (msg : Parts) : Decidable (Request idlen msg) :=
  inferInstanceAs (Decidable (_ ∧ _ ∧ _))

/-- The first reply of the handler, or an answer with its result. -/
def answerBytes (hd : Handling) : List Byte :=
  match hd.replies with
  | msg :: _ => bytesOf msg
  | [] => [1, UInt8.ofNat ((if hd.ret < 0 then hd.ret else 0) % 256).toNat]

/-- A request adds one frame with its id and the flag of a reply, another message
    none. -/
def Answered (c : Codec) (srm srm' : StreamInput) (msg : Parts) (hd : Handling) : Prop :=
  if Request srm.max msg then
    ∃ body, srm'.data.wd.data.content = srm.data.wd.data.content ++ (body ++ [0]) ∧
      (0 : Byte) ∉ body ∧
      Cobs.Decodes c (body ++ [0]) (Event.setFlag (msg.bytes.take srm.max) ++ answerBytes hd)
  else
    srm'.data.wd = srm.data.wd

/-- Messages that come in, each with what the handler does. -/
def machine (memory : Memory) (rounds : Nat) :
    Machine (Option StreamInput) (Parts × Handling) Unit where
  step srm op := (srm.bind fun srm => (streamMessage memory rounds srm op.1 op.2).map Prod.fst, ())

/-- The message becomes what it should. -/
def Served (memory : Memory) (rounds : Nat) (c : Codec) (srm : Option StreamInput)
    (op : Parts × Handling) : Prop :=
  ∃ srm₀ srm₁, srm = some srm₀ ∧ ((machine memory rounds).step srm op).1 = some srm₁ ∧
    Answered c srm₀ srm₁ op.1 op.2

/-- No request comes in. -/
def OneWay (idlen : Nat) (_ : Option StreamInput) (op : Parts × Handling) : Prop :=
  ¬ Request idlen op.1

variable {memory : Memory} {rounds : Nat} {c : Codec} {srm : StreamInput} {msg : Parts}
  {hd : Handling}

/-- The identifier that is stored over an older one, and its first byte. -/
theorem stored_id {max : Nat} {bytes : List Byte} (some : max ≠ 0) (whole : max ≤ bytes.length)
    (val : List Byte) :
    (bytes.take max ++ val.drop (bytes.take max).length).take max = bytes.take max ∧
      (bytes.take max ++ val.drop (bytes.take max).length).headD 0 = bytes.headD 0 := by
  constructor
  · rw [List.take_append_of_le_length (by rw [List.length_take]; omega), List.take_take,
      Nat.min_self]
  · cases bytes with
    | nil => exact absurd (Nat.le_zero.mp whole) some
    | cons b bytes =>
        obtain ⟨k, rfl⟩ : ∃ k, max = k + 1 := ⟨max - 1, by omega⟩
        rfl

/-- A message that asks for no reply leaves the stream alone. -/
theorem streamMessage_oneWay (memory : Memory) (rounds : Nat) (hd : Handling)
    (none : ¬ Request srm.max msg) :
    ∃ srm' ret, streamMessage memory rounds srm msg hd = some (srm', ret) ∧
      srm'.data = srm.data ∧ srm'.max = srm.max := by
  unfold streamMessage
  by_cases bare : srm.max = 0
  · rw [if_pos bare]
    exact ⟨_, _, rfl, rfl, rfl⟩
  rw [if_neg bare]
  simp only
  by_cases short : (msg.bytes.take srm.max).length < srm.max
  · rw [if_pos short]
    exact ⟨_, _, rfl, rfl, rfl⟩
  rw [if_neg short]
  have whole : srm.max ≤ msg.bytes.length := by
    rw [List.length_take] at short
    omega
  obtain ⟨id, first⟩ := stored_id bare whole srm.val
  rw [first, id]
  by_cases flag : msg.bytes.headD 0 &&& 0x80 ≠ 0
  · rw [if_pos flag]
    split
    · exact ⟨_, _, rfl, rfl, rfl⟩
    · exact ⟨_, _, rfl, rfl, rfl⟩
  rw [if_neg flag]
  by_cases closed : srm.writable = false
  · rw [if_pos closed]
    exact ⟨_, _, rfl, rfl, rfl⟩
  rw [if_neg closed, if_neg]
  · exact ⟨_, _, rfl, rfl, rfl⟩
  · intro some
    exact none ⟨whole, not_not.mp flag, some⟩

/-- A run without requests adds nothing. -/
theorem served_oneWay {idlen : Nat} {start : Option StreamInput} (some : start.map StreamInput.max =
    .some idlen) (op : Parts × Handling) (none : OneWay idlen start op) :
    Served memory rounds c start op ∧
      ((machine memory rounds).step start op).1.map StreamInput.max = .some idlen := by
  cases start with
  | none => cases some
  | some srm =>
      have size : srm.max = idlen := Option.some.inj some
      subst size
      obtain ⟨srm', ret, run, same, max⟩ :=
        streamMessage_oneWay memory rounds op.2 none
      have step : ((machine memory rounds).step (.some srm) op).1 = .some srm' := by
        simp only [machine, Option.bind_some, run, Option.map_some]
      refine ⟨⟨srm, srm', rfl, step, ?_⟩, ?_⟩
      · unfold Answered
        rw [if_neg none, same]
      · rw [step, Option.map_some, max]

/-- The place for the id is ready for the handler when it is called. -/
theorem streamMessage_request (memory : Memory) (rounds : Nat) (hd : Handling)
    (writable : srm.writable = true) (request : Request srm.max msg) :
    ∃ srm', srm'.data = srm.data ∧ srm'.len ≠ 0 ∧
      srm'.val.take srm'.len = msg.bytes.take srm.max ∧
      streamMessage memory rounds srm msg hd =
        match callHandler memory rounds srm' hd.replies with
        | none => none
        | some srm =>
            if srm.len = 0 then
              some (srm, .ok hd.ret)
            else
              match srm.data.reply memory rounds (.bytes (srm.val.take srm.len)) (some msg) with
              | none => none
              | some (data, _) => some ({ srm with data := data }, .ok hd.ret) := by
  obtain ⟨whole, flag, some⟩ := request
  have sized : srm.max ≠ 0 := by
    intro bare
    simp [bare] at some
  obtain ⟨id, first⟩ := stored_id sized whole srm.val
  refine ⟨{ srm with
    val := msg.bytes.take srm.max ++ srm.val.drop (msg.bytes.take srm.max).length
    len := srm.max }, rfl, sized, id, ?_⟩
  unfold streamMessage
  rw [if_neg sized]
  simp only
  rw [if_neg (by rw [List.length_take]; omega), first, if_neg (not_not.mpr flag),
    if_neg (by simp [writable]), id, if_pos some]

/-- After its first reply the handler can send no other. -/
theorem callHandler_sent (sent : srm.len = 0) (replies : List (Option Parts)) :
    callHandler memory rounds srm replies = some srm := by
  induction replies with
  | nil => rfl
  | cons reply replies ih =>
      unfold callHandler streamReply
      rw [if_pos sent]
      exact ih

/-- The message that is sent for a request: the first reply, or the request itself. -/
def replied (msg : Parts) (hd : Handling) : Option Parts :=
  match hd.replies with
  | reply :: _ => reply
  | [] => some msg

/-- A request is answered under its id, without the flag of a reply. -/
theorem streamMessage_answers (granted : ∀ k, (memory k).isSome) (idle : Idle c srm.data)
    (writable : srm.writable = true) (request : Request srm.max msg)
    (filled : ∀ part ∈ partsOf (replied msg hd), part ≠ [])
    (enough : roundsFor (msg.bytes.take srm.max) (replied msg hd) ≤ rounds)
    (clean : CleanParts memory c rounds srm.data
      (replyParts (msg.bytes.take srm.max) (replied msg hd))) :
    ∃ srm' body, streamMessage memory rounds srm msg hd = some (srm', .ok hd.ret) ∧
      srm'.data.wd.data.content = srm.data.wd.data.content ++ (body ++ [0]) ∧
      Cobs.Decodes c (body ++ [0]) (msg.bytes.take srm.max ++ bytesOf (replied msg hd)) := by
  obtain ⟨srm₁, data, len, id, run⟩ :=
    streamMessage_request memory rounds hd writable request
  obtain ⟨data', body, reply, content, _, _, decodes⟩ :=
    (Stream.reply_adds_frame c granted idle (msg.bytes.take srm.max) (replied msg hd) filled
      enough).1 clean
  rw [← id, ← data] at reply
  rw [run]
  cases replies : hd.replies with
  | nil =>
      simp only [replied, replies] at reply
      simp only [callHandler, if_neg len, reply]
      exact ⟨_, body, rfl, content, decodes⟩
  | cons first rest =>
      simp only [replied, replies] at reply
      have sent : callHandler memory rounds srm₁ (first :: rest) =
          some { srm₁ with data := data', len := 0 } := by
        unfold callHandler streamReply
        rw [if_neg len, reply]
        exact callHandler_sent rfl rest
      simp only [sent, if_true]
      exact ⟨_, body, rfl, content, decodes⟩

/-- A frame holds one message. -/
theorem decodes_unique {frame m₁ m₂ : List Byte} (first : Cobs.Decodes c frame m₁)
    (second : Cobs.Decodes c frame m₂) : m₁ = m₂ := by
  obtain ⟨gap, room⟩ : ∃ gap, Cobs.needAt c.variant 0 frame ≤
      Cobs.gapAt ⟨0, gap, 0, 0, none⟩ [⟨0, gap + frame.length⟩] 1 := by
    refine ⟨Cobs.needAt c.variant 0 frame + 16, ?_⟩
    have small : Cobs.shift ⟨0, Cobs.needAt c.variant 0 frame + 16, 0, 0, none⟩
        [⟨0, Cobs.needAt c.variant 0 frame + 16 + frame.length⟩] 1 ≤ 16 := by
      unfold Cobs.shift
      simp only
      split
      · unfold Cobs.alignPost
        split
        · rename_i align found
          have known := List.mem_of_find?_eq_some found
          simp only [List.mem_cons, List.not_mem_nil, or_false] at known
          rcases known with rfl | rfl | rfl | rfl <;> omega
        · exact Nat.zero_le _
      · exact Nat.zero_le _
    unfold Cobs.gapAt
    simp only
    omega
  have stored : (Mem.write (fun _ => 0) (0 + gap) frame).read (0 + gap) frame.length = frame :=
    Mem.read_write_self _ _ _
  obtain ⟨dec, m, run, _, read⟩ := first _ 0 gap stored room
  obtain ⟨dec', m', run', _, read'⟩ := second _ 0 gap stored room
  rw [run] at run'
  obtain ⟨rfl, same⟩ := Prod.mk.inj run'
  obtain ⟨rfl, _⟩ := Prod.mk.inj same
  exact read.symm.trans read'

/-- The flag of a reply is not set. -/
theorem setFlag_ne {id rest rest' : List Byte} (some : id ≠ []) (flag : id.headD 0 &&& 0x80 = 0) :
    id ++ rest ≠ Event.setFlag id ++ rest' := by
  cases id with
  | nil => exact absurd rfl some
  | cons b id =>
      intro same
      have first : b = b ||| 0x80 := by
        simpa [Event.setFlag] using (List.cons.inj same).1
      have plain : b &&& 0x80 = 0 := flag
      rw [first] at plain
      have set : (b ||| 0x80) &&& 0x80 = 0x80 := by
        apply UInt8.toBitVec_inj.mp
        ext i
        simp
        grind
      rw [set] at plain
      exact absurd plain (by decide)

/-- A request that comes to an idle stream, with data in every part of the reply and
    pushes into the queue that meet the condition there, is not answered. -/
theorem request_unserved {hd : Handling} (granted : ∀ k, (memory k).isSome)
    (idle : Idle c srm.data) (writable : srm.writable = true) (request : Request srm.max msg)
    (filled : ∀ part ∈ partsOf (replied msg hd), part ≠ [])
    (enough : roundsFor (msg.bytes.take srm.max) (replied msg hd) ≤ rounds)
    (clean : CleanParts memory c rounds srm.data
      (replyParts (msg.bytes.take srm.max) (replied msg hd))) :
    ¬ Served memory rounds c (some srm) (msg, hd) := by
  rintro ⟨srm₀, srm', same, step, done⟩
  obtain rfl := Option.some.inj same
  obtain ⟨srm₁, body, run, content, decodes⟩ :=
    streamMessage_answers granted idle writable request filled enough clean
  simp only [machine, Option.bind_some, run, Option.map_some] at step
  obtain rfl := Option.some.inj step
  unfold Answered at done
  rw [if_pos request] at done
  obtain ⟨body', content', _, decodes'⟩ := done
  have frame : body' ++ [0] = body ++ [0] :=
    List.append_cancel_left (content'.symm.trans content)
  rw [frame] at decodes'
  have some : msg.bytes.take srm.max ≠ [] := by
    intro none
    have id := request.2.2
    simp [none] at id
  have flag : (msg.bytes.take srm.max).headD 0 &&& 0x80 = 0 := by
    cases bytes : msg.bytes with
    | nil => simp [bytes] at some
    | cons b bytes =>
        obtain ⟨k, size⟩ : ∃ k, srm.max = k + 1 :=
          ⟨srm.max - 1, by cases max : srm.max <;> simp_all⟩
        have first := request.2.1
        simpa [bytes, size] using first
  exact setFlag_ne some flag (decodes_unique decodes decodes')

/-- Messages become what they should in every run without requests, and a request that
    comes to an idle stream, with data in every part of the reply and pushes into the
    queue that meet the condition there, never does. -/
theorem requests_answered_when (c : Codec) (memory : Memory) (rounds : Nat) :
    (∀ (srm : StreamInput) (ops : List (Parts × Handling)),
      (machine memory rounds).Meets (OneWay srm.max) (some srm) ops →
        (machine memory rounds).Meets (Served memory rounds c) (some srm) ops) ∧
    (∀ (srm : StreamInput) (msg : Parts) (hd : Handling), (∀ k, (memory k).isSome) →
      Idle c srm.data → srm.writable = true → Request srm.max msg →
      (∀ part ∈ partsOf (replied msg hd), part ≠ []) →
      roundsFor (msg.bytes.take srm.max) (replied msg hd) ≤ rounds →
      CleanParts memory c rounds srm.data
        (replyParts (msg.bytes.take srm.max) (replied msg hd)) →
      ¬ Served memory rounds c (some srm) (msg, hd)) := by
  constructor
  · intro srm ops oneWay
    have start : (some srm).map StreamInput.max = some srm.max := rfl
    revert oneWay start
    generalize srm.max = idlen
    generalize some srm = state
    intro oneWay start
    induction ops generalizing state with
    | nil => trivial
    | cons op ops ih =>
        obtain ⟨served, next⟩ := served_oneWay (c := c) start op oneWay.1
        exact ⟨served, ih _ oneWay.2 next⟩
  · intro srm msg hd granted idle writable request filled enough clean
    exact request_unserved granted idle writable request filled enough clean

/-- An input with one byte of id on an empty stream. -/
def inputExample : StreamInput := ⟨Stream.sampleStream Stream.sampleQueue false, true, 1, 0, [0]⟩

theorem requests_answered_none :
    (machine Stream.sampleMemory 7).Meets (Served Stream.sampleMemory 7 .cobs) (some inputExample)
      [(⟨[0, 9], []⟩, ⟨[some ⟨[8], []⟩], 0⟩), (⟨[0x87, 9], []⟩, ⟨[], -1⟩)] :=
  (requests_answered_when .cobs Stream.sampleMemory 7).1 inputExample _
    ⟨by unfold OneWay; decide, by unfold OneWay; decide, trivial⟩

/-- The request with id 7 is not answered by a reply with the byte 8. -/
theorem request_not_answered : ¬ ∀ (c : Codec) (memory : Memory) (rounds : Nat)
    (srm : StreamInput) (ops : List (Parts × Handling)), (∀ k, (memory k).isSome) →
      Idle c srm.data → srm.writable = true → 0 < srm.max →
      (machine memory rounds).Meets (Served memory rounds c) (some srm) ops := by
  intro claim
  have served := (claim .cobs Stream.sampleMemory 7 inputExample
    [(⟨[7, 9], []⟩, ⟨[some ⟨[8], []⟩], 0⟩)] (fun _ => rfl) Stream.pushed_idle rfl (by decide)).1
  exact request_unserved (fun _ => rfl) Stream.pushed_idle rfl (by decide)
    (by simp [replied, partsOf, Parts.all]) (by decide) Stream.sample_clean served

end Mpt.Input
