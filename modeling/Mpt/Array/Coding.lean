import Mpt.Array.Push
import Mpt.Convert.Delivery
import Mpt.Run

/-! # The way through an encode array and back

Messages are pushed in pieces and terminated, then the finished bytes of the array
are decoded in place, with space put in wherever the decoder asks for it.
-/

namespace Mpt.Heap.Coding

open Cobs

/-- Data of a push; it is never empty. -/
abbrev Chunk := { l : List Byte // l ≠ [] }

inductive Call where
  | data (src : Chunk)
  | finish

/-- The heap with the encode array, and what was given to it so far: the finished
    messages and the data of the next one. -/
structure Session where
  world : World
  array : EncodeArray
  past : List (List Byte)
  taken : List Byte

def Session.start : Session := ⟨.empty, ⟨.init, none⟩, [], []⟩

def step (env : Env) (c : Codec) (s : Session) : Call → Session × Option (Except Error Nat)
  | .data src =>
      let (w, a, ret) := arrayPush env (some c.encoder) s.world s.array (.bytes src.val)
      (⟨w, a, s.past, s.taken ++ src.val⟩, ret)
  | .finish =>
      let (w, a, ret) := arrayPush env (some c.encoder) s.world s.array (.null 0)
      (⟨w, a, s.past ++ [s.taken], []⟩, ret)

def machine (env : Env) (c : Codec) : Machine Session Call (Option (Except Error Nat)) where
  step := step env c

/-- The calls for messages that are each cut into pieces. -/
def calls (msgs : List (List Chunk)) : List Call :=
  msgs.flatMap fun chunks => chunks.map .data ++ [.finish]

/-- The message that the pieces make. -/
def message (chunks : List Chunk) : List Byte := (chunks.map Subtype.val).flatten

/-- The result of a call that succeeds. -/
def Call.success : Call → Option (Except Error Nat)
  | .data src => some (.ok src.val.length)
  | .finish => some (.ok 0)

/-- The pushes that keep the messages: no block of maximal size ends with the buffer,
    at any size it takes during the push, and a message without data is terminated
    only as the first. -/
def Clean (c : Codec) (s : Session) : Call → Prop
  | .data src => ∀ i, ¬ Overrun c.variant (openData s.world s.array)
      (firstSize s.world s.array src.val.length + 128 * i - s.array.state.done) src.val
  | .finish => s.array.state.scratch ≠ 0 ∨ s.array.state.done = 0

instance (c : Codec) (s : Session) : Decidable (Clean c s .finish) :=
  inferInstanceAs (Decidable (_ ∨ _))

/-- The array holds frames for the finished messages and the blocks of the data of
    the next one. -/
structure Sound (c : Codec) (s : Session) (fs : List Frame) (bs : List Block)
    (o : Option (List Byte)) : Prop where
  contents : Contents c.variant s.world s.array (stream c.variant fs ++ encoded c.variant bs) o
  frames : ∀ f ∈ fs, f.Ok c
  past : fs.map Frame.message = s.past
  blocks : ∀ b ∈ bs, b.Ok c.variant
  taken : decoded bs ++ o.getD [] = s.taken
  fresh : s.taken = [] → o = none ∧ bs = []

variable {env : Env} {c : Codec} {s : Session}

theorem sound_start (c : Codec) : Sound c .start [] [] none where
  contents := .empty rfl rfl rfl rfl
  frames := nofun
  past := rfl
  blocks := nofun
  taken := rfl
  fresh := fun _ => ⟨rfl, rfl⟩

theorem Contents.short {v : Variant} {w : World} {a : EncodeArray} {fin : List Byte}
    {o : Option (List Byte)} (h : Contents v w a fin o) : Short v (o.getD []) := by
  cases h with
  | empty arr state fin_eq o_eq =>
      rw [o_eq]
      exact short_nil v
  | buffer arr filled => exact filled.holds.short

theorem sound_data {fs : List Frame} {bs : List Block} {o : Option (List Byte)}
    (h : Sound c s fs bs o) (src : Chunk) (clean : Clean c s (.data src))
    (granted : (step env c s (.data src)).1.world.refused = false) :
    (step env c s (.data src)).2 = Call.success (.data src) ∧
      ∃ bs' o', Sound c (step env c s (.data src)).1 fs bs' o' := by
  rcases run : arrayPush env (some c.encoder) s.world s.array (.bytes src.val) with ⟨w, a, ret⟩
  simp only [step, run] at granted ⊢
  obtain ⟨rfl, contents⟩ := arrayPush_data c h.contents src.property clean run granted
  have short := Contents.short h.contents
  obtain ⟨blocks, _⟩ := split_ok c.variant (o.getD []) src.val short
  have decodes := decoded_split c.variant (o.getD []) src.val
  refine ⟨rfl, bs ++ (split c.variant (o.getD []) src.val).1,
    some (split c.variant (o.getD []) src.val).2, ?_, h.frames, h.past, ?_, ?_, ?_⟩
  · rw [encoded_append, ← List.append_assoc]
    exact contents
  · intro b mem
    rcases List.mem_append.mp mem with old | new
    · exact h.blocks b old
    · exact blocks b new
  · simp only [decoded_append, Option.getD_some, List.append_assoc, decodes]
    rw [← List.append_assoc, h.taken]
  · intro empty
    exact absurd (List.append_eq_nil_iff.mp empty).2 src.property

/-- The frame that ends a message with the open block `o`. -/
def lastFrame (c : Codec) (bs : List Block) (o : List Byte) : Frame :=
  if c.tail = true ∧ Inline c.variant o then ⟨bs, o.dropLast, o.getLast?⟩ else ⟨bs, o, none⟩

theorem lastFrame_ok {bs : List Block} {o : List Byte} (blocks : ∀ b ∈ bs, b.Ok c.variant)
    (short : Short c.variant o) : (lastFrame c bs o).Ok c := by
  obtain ⟨nonzero, size⟩ := short
  unfold lastFrame
  split
  · rename_i inl
    obtain ⟨tail, e, last, low, high⟩ := inl
    refine ⟨blocks, fun zero => nonzero (List.dropLast_subset o zero), ?_⟩
    simp only [last]
    refine ⟨tail, ?_, high⟩
    rw [List.length_dropLast]
    omega
  · exact ⟨blocks, nonzero, Nat.le_of_lt size⟩

theorem lastFrame_bytes (bs : List Block) (o : List Byte) :
    (lastFrame c bs o).bytes c.variant =
      encoded c.variant bs ++ (closed c.variant c.tail o ++ [0]) := by
  unfold lastFrame closed
  split
  · rename_i inl
    obtain ⟨_, e, last, _⟩ := inl
    simp [Frame.bytes, Frame.body, last]
  · simp [Frame.bytes, Frame.body, opened]

theorem lastFrame_message (bs : List Block) (o : List Byte) :
    (lastFrame c bs o).message = decoded bs ++ o := by
  unfold lastFrame
  split
  · rename_i inl
    obtain ⟨_, e, last, _⟩ := inl
    have some : o ≠ [] := by
      rintro rfl
      cases last
    have whole := List.dropLast_append_getLast some
    rw [List.getLast?_eq_some_getLast some] at last
    obtain rfl := Option.some.inj last
    simp only [Frame.message, List.getLast?_eq_some_getLast some, Option.toList_some,
      List.append_assoc, whole]
  · simp [Frame.message]

theorem ended_eq (o : Option (List Byte)) :
    ended c o = closed c.variant c.tail (o.getD []) ++ [0] := by
  cases o with
  | none => simp [ended, closed, Inline, opened]
  | some o => rfl

theorem sound_finish {fs : List Frame} {bs : List Block} {o : Option (List Byte)}
    (h : Sound c s fs bs o) (clean : Clean c s .finish)
    (granted : (step env c s .finish).1.world.refused = false) :
    (step env c s .finish).2 = Call.success .finish ∧
      ∃ f, Sound c (step env c s .finish).1 (fs ++ [f]) [] none := by
  rcases run : arrayPush env (some c.encoder) s.world s.array (.null 0) with ⟨w, a, ret⟩
  simp only [step, run] at granted ⊢
  obtain ⟨rfl, contents⟩ := arrayPush_finish c h.contents clean run granted
  have short := Contents.short h.contents
  refine ⟨rfl, lastFrame c bs (o.getD []), ?_, ?_, ?_, nofun, rfl, fun _ => ⟨rfl, rfl⟩⟩
  · rw [ended_eq o, List.append_assoc, ← lastFrame_bytes] at contents
    simpa [stream] using contents
  · intro f mem
    rcases List.mem_append.mp mem with old | new
    · exact h.frames f old
    · rw [List.mem_singleton.mp new]
      exact lastFrame_ok h.blocks short
  · rw [List.map_append, h.past, List.map_singleton, lastFrame_message, h.taken]

theorem step_refused (s : Session) (call : Call)
    (granted : (step env c s call).1.world.refused = false) : s.world.refused = false := by
  cases call with
  | data src => exact arrayPush_refused granted
  | finish => exact arrayPush_refused granted

theorem after_refused {calls : List Call} {s : Session}
    (granted : ((machine env c).after s calls).world.refused = false) :
    s.world.refused = false := by
  induction calls generalizing s with
  | nil => exact granted
  | cons call calls ih => exact step_refused s call (ih granted)

/-- The arrays of a session in which no request for memory is turned down. -/
theorem sound_after (calls : List Call) {s : Session} {fs : List Frame} {bs : List Block}
    {o : Option (List Byte)} (sound : Sound c s fs bs o)
    (clean : (machine env c).Meets (Clean c) s calls)
    (granted : ((machine env c).after s calls).world.refused = false) :
    (machine env c).outputs s calls = calls.map Call.success ∧
      ∃ fs' bs' o', Sound c ((machine env c).after s calls) fs' bs' o' := by
  induction calls generalizing s fs bs o with
  | nil => exact ⟨rfl, fs, bs, o, sound⟩
  | cons call calls ih =>
      have here : (step env c s call).1.world.refused = false := after_refused granted
      have next : (step env c s call).2 = call.success ∧
          ∃ fs' bs' o', Sound c (step env c s call).1 fs' bs' o' := by
        cases call with
        | data src =>
            obtain ⟨ret, bs', o', sound⟩ := sound_data sound src clean.1 here
            exact ⟨ret, fs, bs', o', sound⟩
        | finish =>
            obtain ⟨ret, f, sound⟩ := sound_finish sound clean.1 here
            exact ⟨ret, _, _, _, sound⟩
      obtain ⟨ret, fs', bs', o', sound'⟩ := next
      obtain ⟨rets, final⟩ := ih sound' clean.2 granted
      refine ⟨?_, final⟩
      rw [Machine.outputs, List.map_cons, ← rets]
      exact congrArg (· :: _) ret

/-- How the decoding of an array ends. -/
inductive Result where
  | finished
  | failed (e : Error)
  /-- no space could be inserted -/
  | aborted
  /-- the rounds did not suffice -/
  | exhausted
  deriving Repr, DecidableEq

structure Decoded where
  world : World
  delivered : List (List Byte)
  result : Result

/-- Decode the first `len` bytes of an array, and insert free bytes where they are
    missing; `grow` tells how many each time. -/
def decodeArray (env : Env) (c : Codec) (grow : Nat → Nat) :
    (rounds : Nat) → World → Array → (len : Nat) → DecodeState → List (List Byte) → Decoded
  | 0, w, _, _, _, out => ⟨w, out, .exhausted⟩
  | rounds + 1, w, arr, len, dec, out =>
      match arr.bind fun p => (w.cells p).map (p, ·) with
      | none => ⟨w, out, .finished⟩
      | some (p, b) =>
          match c.decoder dec b.mem (some [⟨b.base, len⟩]) 1 with
          | (_, mem, .ok 0) => ⟨w.store p { b with mem := mem }, out, .finished⟩
          | (dec, mem, .ok _) =>
              decodeArray env c grow rounds (w.store p { b with mem := mem }) arr len dec
                (out ++ [mem.read (b.base + dec.pos) (dec.msg.getD 0)])
          | (dec, mem, .error .missingBuffer) =>
              match arrayInsert env (w.store p { b with mem := mem }) arr dec.curr (grow rounds) with
              | (w, _, none) => ⟨w, out, .aborted⟩
              | (w, arr, some _) =>
                  decodeArray env c grow rounds w arr (len + grow rounds)
                    { dec with curr := dec.curr + grow rounds } out
          | (_, mem, .error e) => ⟨w.store p { b with mem := mem }, out, .failed e⟩

theorem decodeArray_refused {grow : Nat → Nat} {rounds : Nat} {w : World} {arr : Array} {len : Nat}
    {dec : DecodeState} {out : List (List Byte)}
    (granted : (decodeArray env c grow rounds w arr len dec out).world.refused = false) :
    w.refused = false := by
  induction rounds generalizing w arr len dec out with
  | zero => exact granted
  | succ rounds ih =>
      unfold decodeArray at granted
      split at granted
      · exact granted
      · split at granted
        · exact granted
        · have before := ih granted
          exact before
        · split at granted
          · rename_i insert
            have before := arrayInsert_refused insert
            exact before granted
          · rename_i insert
            have before := arrayInsert_refused insert
            exact before (ih granted)
        · exact granted

/-- Free bytes behind the decoded ones keep what there is to deliver. -/
theorem tracks_insert {m m' : Mem Byte} {base base' len k : Nat} {dec : DecodeState}
    {fs : List Frame} (t : Tracks c dec m (addresses base len) [] fs)
    (front : m'.read base' dec.curr = m.read base dec.curr)
    (behind : m'.read (base' + dec.curr + k) (len - dec.curr) =
      m.read (base + dec.curr) (len - dec.curr)) :
    Tracks c { dec with curr := dec.curr + k } m' (addresses base' (len + k)) [] fs := by
  obtain ⟨⟨order, inside, msg⟩, closed, pending⟩ := t
  rw [length_addresses] at inside
  have window : ∀ (m : Mem Byte) base n, dec.curr ≤ n →
      (((addresses base n).drop dec.pos).take dec.len).map m =
        ((m.read base dec.curr).drop dec.pos).take dec.len := by
    intro m base n le
    rw [drop_addresses _ _ _ (by omega), take_addresses _ _ _ (by omega), map_addresses,
      Mem.drop_read _ _ _ _ (by omega), Mem.take_read, Nat.min_eq_left (by omega)]
  refine ⟨⟨by simp only; omega, by simp; omega, msg⟩, closed, ?_⟩
  have parts : part { dec with curr := dec.curr + k } m' (addresses base' (len + k)) =
      part dec m (addresses base len) := by
    unfold part
    simp only [window m' base' (len + k) (by omega), window m base len inside, front]
  have rest : unread { dec with curr := dec.curr + k } m' (addresses base' (len + k)) =
      unread dec m (addresses base len) := by
    unfold unread
    rw [drop_addresses _ _ _ (by simp only; omega), drop_addresses _ _ _ inside, map_addresses,
      map_addresses, ← behind]
    congr 1
    · simp only
      omega
    · simp only
      omega
  rw [parts, rest]
  exact pending

/-- The messages and bytes that are still to be decoded. -/
def work (fs : List Frame) : Nat := (fs.map fun f => f.message.length + 1).sum

theorem part_le_work {ctx : Nat} {part rest : List Byte} {fs : List Frame}
    (pending : Pending c ctx part rest fs) : part.length ≤ work fs := by
  cases pending with
  | between => exact Nat.zero_le _
  | inside codeNe low high ends message =>
      have := congrArg List.length message
      simp only [List.length_append, work, List.map_cons, List.sum_cons] at this ⊢
      omega

/-- The message that a decoder state reports. -/
theorem reported_eq {m : Mem Byte} {base len : Nat} {dec : DecodeState}
    (ready : Ready dec (addresses base len)) (isSome : dec.msg = some dec.len) :
    m.read (base + dec.pos) (dec.msg.getD 0) =
      (((addresses base len).drop dec.pos).take dec.len).map m := by
  have order := ready.order
  have inside := ready.inside
  rw [length_addresses] at inside
  rw [drop_addresses _ _ _ (by omega), take_addresses _ _ _ (by omega), map_addresses, isSome]
  rfl

/-- Decoding an array that holds the encoded frames delivers their messages. -/
theorem decodeArray_delivers {grow : Nat → Nat} (some : ∀ n, 0 < grow n) {rounds : Nat}
    {w : World} {p : Nat} {b : Buffer} (here : Private w p b) {dec : DecodeState}
    {fs : List Frame} (ok : ∀ f ∈ fs, f.Ok c)
    (t : Tracks c dec b.mem (addresses b.base b.used) [] fs)
    (space : dec.ctx ≠ 0 → 0 < gapAt dec [⟨b.base, b.used⟩] 1)
    (enough : work fs < rounds + seen dec) (out : List (List Byte))
    (granted : (decodeArray env c grow rounds w (Option.some p) b.used dec out).world.refused =
      false) :
    (decodeArray env c grow rounds w (Option.some p) b.used dec out).result = .finished ∧
      (decodeArray env c grow rounds w (Option.some p) b.used dec out).delivered =
        out ++ fs.map Frame.message := by
  induction rounds generalizing w p b dec fs out with
  | zero =>
      have le := part_le_work t.pending
      rw [length_part t.ready] at le
      omega
  | succ rounds ih =>
      obtain ⟨dec', m', ret, call, _, outcome⟩ :=
        decoder_outcome ok (nodup_addresses b.base b.used) t (show 1 ≠ 0 by decide)
          (show (sourceParts [⟨b.base, b.used⟩] 1).bytes = addresses b.base b.used by
            simp [sourceParts, Message.bytes])
      have stored : Private (w.store p { b with mem := m' }) p { b with mem := m' } :=
        here.store rfl rfl rfl rfl rfl here.used
      unfold decodeArray at granted ⊢
      simp only [Option.bind_some, here.cell, Option.map_some, call] at granted ⊢
      rcases outcome.advance t space with ⟨rfl, f, fs', rfl, tracks, isSome, message⟩ |
          ⟨rfl, rfl⟩ | ⟨rfl, tracks, isNone, progress⟩
      · -- a message is delivered
        have le := t.pending.part_le
        rw [length_part t.ready] at le
        have fresh : seen dec' = 0 := by simp [seen, isSome]
        simp only [work, List.map_cons, List.sum_cons] at enough
        simp only [reported_eq tracks.ready isSome, message] at granted ⊢
        obtain ⟨result, delivered⟩ := ih stored (fun f mem => ok f (by simp [mem])) tracks
          (fun ctx => absurd (tracks.closed (by simp [isSome])) ctx)
          (by unfold work; omega) (out ++ [f.message]) granted
        exact ⟨result, by rw [delivered]; simp⟩
      · exact ⟨rfl, by simp⟩
      · -- space is put in where the unread bytes start
        have inside := tracks.ready.inside
        have order := tracks.ready.order
        rw [length_addresses] at inside
        rcases insert : arrayInsert env (w.store p { b with mem := m' }) (Option.some p) dec'.curr
          (grow rounds) with ⟨w₁, arr, ret⟩
        simp only [insert] at granted ⊢
        have plain : w₁.refused = false := by
          cases ret with
          | none => exact granted
          | some _ => exact decodeArray_refused granted
        obtain ⟨_, isSome, q, b', rfl, inserted⟩ := arrayInsert_private stored inside insert plain
        obtain ⟨a, rfl⟩ := Option.isSome_iff_exists.mp isSome
        have tracks' := tracks_insert (k := grow rounds) tracks inserted.front inserted.behind
        have used := inserted.used
        simp only at used granted ⊢
        rw [← used] at tracks' granted ⊢
        refine ih inserted.here ok tracks' (fun _ => ?_) ?_ out granted
        · have more := some rounds
          have notNew : dec'.len ≠ 0 := by omega
          simp only [gapAt, shift, isNone, Option.getD_none, Nat.sub_zero, if_neg notNew]
          omega
        · have : seen { dec' with curr := dec'.curr + grow rounds } = dec'.len := by
            simp [seen, isNone]
          omega

theorem after_data (env : Env) (c : Codec) (s : Session) (chunks : List Chunk) :
    ((machine env c).after s (chunks.map .data)).past = s.past ∧
      ((machine env c).after s (chunks.map .data)).taken = s.taken ++ message chunks := by
  induction chunks generalizing s with
  | nil => simp [Machine.after, message]
  | cons src chunks ih =>
      obtain ⟨past, taken⟩ := ih (step env c s (.data src)).1
      refine ⟨past, taken.trans ?_⟩
      simp [step, message]

/-- The session has seen the messages. -/
theorem after_calls (env : Env) (c : Codec) (msgs : List (List Chunk)) (s : Session) (fresh : s.taken = []) :
    ((machine env c).after s (calls msgs)).past = s.past ++ msgs.map message ∧
      ((machine env c).after s (calls msgs)).taken = [] := by
  induction msgs generalizing s with
  | nil => simp [calls, Machine.after, fresh]
  | cons chunks msgs ih =>
      obtain ⟨past, taken⟩ := after_data env c s chunks
      generalize mid : (machine env c).after s (chunks.map .data) = t at past taken
      have whole : (machine env c).after s (calls (chunks :: msgs)) =
          (machine env c).after (step env c t .finish).1 (calls msgs) := by
        rw [calls, List.flatMap_cons, Machine.after_append, Machine.after_append, mid]
        rfl
      have ended : (step env c t .finish).1.past = s.past ++ [message chunks] := by
        simp [step, past, taken, fresh]
      obtain ⟨past', taken'⟩ := ih (step env c t .finish).1 rfl
      rw [whole, past', taken', ended]
      simp

/-- The decoder at the start of an array. -/
theorem tracks_start {m : Mem Byte} {base len : Nat} {fs : List Frame}
    (holds : m.read base len = stream c.variant fs) :
    Tracks c .init m (addresses base len) [] fs := by
  refine ⟨⟨Nat.le_refl _, Nat.zero_le _, .inl rfl⟩, fun _ => rfl, ?_⟩
  have front : unread .init m (addresses base len) = stream c.variant fs := by
    simp [unread, DecodeState.init, map_addresses, holds]
  rw [front, List.append_nil]
  exact .between fs

/-- Messages that are pushed in pieces by clean calls come back from the array, with
    any codec: every push succeeds, and decoding ends with exactly the messages. -/
theorem round_trip (c : Codec) (env : Env) (grow : Nat → Nat) (some : ∀ n, 0 < grow n)
    (msgs : List (List Chunk)) (clean : (machine env c).Meets (Clean c) .start (calls msgs))
    (granted : ((machine env c).after .start (calls msgs)).world.refused = false) :
    let s := (machine env c).after .start (calls msgs)
    (machine env c).outputs .start (calls msgs) = (calls msgs).map Call.success ∧
      ∃ n, ∀ rounds, n ≤ rounds →
        let r := decodeArray env c grow rounds s.world s.array.arr s.array.state.done .init []
        r.world.refused = false → r.result = .finished ∧ r.delivered = msgs.map message := by
  intro s
  obtain ⟨outputs, fs, bs, o, sound⟩ := sound_after (calls msgs) (sound_start c) clean granted
  obtain ⟨past, taken⟩ := after_calls env c msgs .start rfl
  obtain ⟨rfl, rfl⟩ := sound.fresh taken
  have messages : fs.map Frame.message = msgs.map message := by
    rw [sound.past, past]
    rfl
  refine ⟨outputs, work fs + 1, ?_⟩
  intro rounds enough r granted
  have contents := sound.contents
  rw [encoded_nil, List.append_nil] at contents
  cases contents with
  | empty arr state nothing _ =>
      obtain rfl := stream_eq_nil nothing
      obtain ⟨k, rfl⟩ := Nat.exists_eq_add_of_le' enough
      have run : r = ⟨s.world, [], .finished⟩ := by
        simp only [r, s, arr]
        rfl
      rw [run, ← messages]
      exact ⟨rfl, rfl⟩
  | buffer arr filled =>
      rename_i p b
      have scratch : s.array.state.scratch = 0 := filled.holds.scratch
      have used : b.used = s.array.state.done := by
        rw [filled.used, show ((machine env c).after .start (calls msgs)).array.state.scratch = 0
          from scratch, Nat.add_zero]
      have holds : b.mem.read b.base b.used = stream c.variant fs := by
        rw [filled.used, filled.holds.mem]
        exact List.append_nil _
      have run : r = decodeArray env c grow rounds s.world (Option.some p) b.used .init [] := by
        simp only [r, used]
        rw [show s.array.arr = Option.some p from arr]
      rw [run] at granted ⊢
      have delivers := decodeArray_delivers some filled.here sound.frames (tracks_start holds)
        (fun ctx => absurd rfl ctx) (by omega) [] granted
      rw [messages, List.nil_append] at delivers
      exact delivers

/-- An environment that gives memory to every request. -/
def generous : Env := ⟨fun n _ => 4096 * (n + 1), fun _ _ => 0, fun _ => true, fun _ _ => 0⟩

/-- The messages 7 0 0 9, in two pieces, and 5. -/
def piecesExample : List (List Chunk) :=
  [[⟨[7, 0], by decide⟩, ⟨[0, 9], by decide⟩], [⟨[5], by decide⟩]]

theorem round_trip_pieces :
    let s := (machine generous .cobsZpeR).after .start (calls piecesExample)
    ∃ n, ∀ rounds, n ≤ rounds →
      let r := decodeArray generous .cobsZpeR (fun _ => 8) rounds s.world s.array.arr
        s.array.state.done .init []
      r.world.refused = false → r.result = .finished ∧ r.delivered = [[7, 0, 0, 9], [5]] := by
  have clean : (machine generous .cobsZpeR).Meets (Clean .cobsZpeR) .start
      (calls piecesExample) := by
    refine ⟨fun i => not_overrun_short _ ?_, fun i => not_overrun_short _ ?_, ?_,
      fun i => not_overrun_short _ ?_, ?_, trivial⟩
    · decide +kernel
    · decide +kernel
    · decide +kernel
    · decide +kernel
    · decide +kernel
  exact (round_trip .cobsZpeR generous (fun _ => 8) (fun _ => by decide) piecesExample clean
    (by decide +kernel)).2

/-- Decoding ends where the first call finds no message. -/
theorem decodeArray_idle {grow : Nat → Nat} (rounds : Nat) {w : World} {p len : Nat}
    {dec : DecodeState}
    (idle : (w.cells p).map (fun b => (c.decoder dec b.mem (some [⟨b.base, len⟩]) 1).2.2) =
      some (.ok 0)) (out : List (List Byte)) :
    (decodeArray env c grow rounds w (some p) len dec out).delivered = out := by
  cases rounds with
  | zero => rfl
  | succ rounds =>
      obtain ⟨b, cell, ret⟩ := Option.map_eq_some_iff.mp idle
      rcases call : c.decoder dec b.mem (some [⟨b.base, len⟩]) 1 with ⟨dec', m', ret'⟩
      rw [call] at ret
      obtain rfl : ret' = .ok 0 := ret
      simp only [decodeArray, Option.bind_some, cell, Option.map_some, call]

/-- A message without data that is not the first: its end sets the finished size to 2,
    and the array's first 2 bytes hold no message at all. -/
theorem empty_message_lost :
    let s := (machine generous .cobs).after .start (calls [[⟨[1], by decide⟩], []])
    s.world.refused = false ∧ s.array.state.done = 2 ∧ ∀ rounds,
      (decodeArray generous .cobs (fun _ => 8) rounds s.world s.array.arr s.array.state.done
        .init []).delivered ≠ [[1], []] := by
  intro s
  have arr : s.array.arr = some 1 := by decide +kernel
  have done : s.array.state.done = 2 := by decide +kernel
  refine ⟨by decide +kernel, done, fun rounds => ?_⟩
  rw [arr, done, decodeArray_idle rounds (by decide +kernel)]
  decide

end Mpt.Heap.Coding
