import Mpt.Array.Push
import Mpt.Array.Raw
import Mpt.Convert.Encode
import Mpt.Run

/-! # The zones of an encode array

The bytes of the buffer are those that were taken from the front, then the finished ones and
last the unfinished ones; two counters tell the sizes of the zones from the end on.  The
array is the only holder of its buffer.
-/

namespace Mpt.Heap.Zones

open Cobs (Codec)

/-- The heap with an encode array. -/
structure State where
  world : World
  array : EncodeArray

namespace State

/-- The buffer of the array. -/
def buf (s : State) : Option Buffer := s.array.arr.bind s.world.cells

/-- `encode_array::data` -/
def data (s : State) : List Byte :=
  match s.buf with
  | none => []
  | some b =>
      let off := b.used - (s.array.state.done + s.array.state.scratch)
      b.mem.read (b.base + off) s.array.state.done

/-- The bytes behind those of `encode_array::data`. -/
def unfinished (s : State) : List Byte :=
  match s.buf with
  | none => []
  | some b => b.mem.read (b.base + (b.used - s.array.state.scratch)) s.array.state.scratch

/-- `encode_array::shift` to the front.  The flag `max` is subtracted from, and the content
    is set to zeros in the end. -/
def shiftFront (s : State) : State × Bool :=
  let len := s.array.state.done + s.array.state.scratch
  match s.array.arr.bind fun p => (s.world.cells p).map (p, ·) with
  | none => (s, false)
  | some (p, b) =>
      if b.used ≤ len then
        (s, false)
      else
        let mem := b.mem.write b.base (b.mem.read (b.base - len) len)
        let mem := mem.write b.base (List.replicate len 0)
        ({ s with world := s.world.store p { b with mem := mem, used := len } }, true)

/-- `encode_array::shift` -/
def shift (s : State) (len : Nat) : State × Bool :=
  -- move data segment to front
  if len = 0 then
    s.shiftFront
  -- consume terminated data
  else if s.array.state.done < len then
    (s, false)
  else
    ({ s with array := { s.array with
      state := { s.array.state with done := s.array.state.done - len } } }, true)

/-- `encode_array::push` of data. -/
def push (env : Env) (enc : Option Encoder) (s : State) (data : Data) :
    State × Option (Except Error Nat) :=
  let (w, a, ret) := arrayPush env enc s.world s.array data
  (⟨w, a⟩, ret)

/-- The loop of `encode_array::push` for a message with `clen` parts behind the current one,
    which is not changed. -/
def messageLoop (env : Env) (enc : Option Encoder) (part : List Byte) (clen : Nat) (s : State) :
    (rounds : Nat) → Option (State × Bool)
  | 0 => none
  | rounds + 1 =>
      if part = [] then
        match clen with
        | 0 => some (s, true)
        | clen + 1 => messageLoop env enc part clen s rounds
      else
        match s.push env enc (.bytes part) with
        | (_, none) => none
        | (s, some (.error _)) => some (s, false)
        | (s, some (.ok curr)) =>
            if part.length < curr then some (s, false)
            else messageLoop env enc part clen s rounds

end State

inductive Call where
  | push (data : Data)
  | message (part : List Byte) (cont : List (List Byte))
  | shift (len : Nat)

/-- What a call returns; there is nothing where it does not come to its end. -/
inductive Answer where
  | pushed (ret : Option (Except Error Nat))
  | message (ok : Option Bool)
  | shifted (ok : Bool)

/-- The rounds that would do for a message if each took a part or a byte. -/
def rounds (part : List Byte) (cont : List (List Byte)) : Nat :=
  part.length + cont.flatten.length + cont.length + 1

def machine (env : Env) (enc : Option Encoder) : Machine State Call Answer where
  step s
    | .push data => ((s.push env enc data).1, .pushed (s.push env enc data).2)
    | .message part cont =>
        match s.messageLoop env enc part cont.length (rounds part cont) with
        | none => (s, .message none)
        | some (s, ok) => (s, .message (some ok))
    | .shift len => ((s.shift len).1, .shifted (s.shift len).2)

/-! ## What the encoder is called for -/

/-- A call of the encoder with a target. -/
structure EncCall where
  state : EncodeState
  mem : Mem Byte
  base : Nat
  len : Nat
  src : Option Data

namespace EncCall

variable (enc : Encoder) (c : EncCall)

def result : EncodeState × Mem Byte × Except Error Nat :=
  enc c.state c.mem (some ⟨c.base, c.len⟩) c.src

/-- The bytes that the call finishes. -/
def chunk : List Byte :=
  (c.result enc).2.1.read (c.base + c.state.done) ((c.result enc).1.done - c.state.done)

/-- Finished bytes stay where they are, the counters fit the target, and no more is consumed
    than there is. -/
structure Keeps : Prop where
  done : c.state.done ≤ (c.result enc).1.done
  fits : (c.result enc).1.done + (c.result enc).1.scratch ≤ c.len
  mem : ∀ i < c.base + c.state.done, (c.result enc).2.1 i = c.mem i
  consumed : ∀ l n, c.src = some (.bytes l) → (c.result enc).2.2 = .ok n → n ≤ l.length

/-- No more is consumed than there is. -/
def consumes (src : Option Data) (ret : Except Error Nat) : Bool :=
  match src, ret with
  | some (.bytes l), .ok n => n ≤ l.length
  | _, _ => true

instance : Decidable (c.Keeps enc) :=
  decidable_of_iff (c.state.done ≤ (c.result enc).1.done ∧
      (c.result enc).1.done + (c.result enc).1.scratch ≤ c.len ∧
      (∀ i < c.base + c.state.done, (c.result enc).2.1 i = c.mem i) ∧
      consumes c.src (c.result enc).2.2 = true) <| by
    constructor
    · rintro ⟨done, fits, mem, consumed⟩
      refine ⟨done, fits, mem, fun l n src ret => ?_⟩
      rw [src, ret] at consumed
      exact of_decide_eq_true consumed
    · intro keeps
      refine ⟨keeps.done, keeps.fits, keeps.mem, ?_⟩
      unfold consumes
      split
      · exact decide_eq_true (keeps.consumed _ _ ‹_› ‹_›)
      · rfl

end EncCall

/-- The calls of the encoder in the loop of `mpt_array_push`. -/
def loopCalls (env : Env) (enc : Encoder) :
    (rounds : Nat) → World → EncodeState → (p : Nat) → Data → List EncCall
  | 0, _, _, _, _ => []
  | rounds + 1, w, state, p, data =>
      match w.cells p with
      | none => []
      | some b =>
          if b.used < state.done + state.scratch then
            []
          else
            let off := b.used - (state.done + state.scratch)
            let c : EncCall := ⟨state, b.mem, b.base + off, b.size - off,
              if data.len = 0 then none else some data⟩
            let (state, mem, cont) := c.result enc
            let w := w.store p { b with mem := mem, used := off + (state.done + state.scratch) }
            c :: match cont with
              | .error .missingBuffer =>
                  match bufferDetach env w p (b.size + 64) with
                  | (_, none) => []
                  | (w, some p) => loopCalls env enc rounds w state p data
              | .error _ => []
              | .ok cont =>
                  match data with
                  | .null _ => []
                  | .bytes src =>
                      if src.length - cont = 0 then []
                      else loopCalls env enc rounds w state p (.bytes (src.drop cont))

/-- The calls of the encoder in `mpt_array_push`. -/
def pushCalls (env : Env) (enc : Encoder) (s : State) (data : Data) : List EncCall :=
  let need := s.array.state.done + s.array.state.scratch
  let add := if 64 < data.len then data.len else 64
  match s.array.arr with
  | none =>
      match bufferAlloc env s.world add .none with
      | (_, none) => []
      | (w, some p) => loopCalls env enc (2 * data.len + 2) w s.array.state p data
  | some p =>
      match bufferDetach env s.world p (need + add) with
      | (_, none) => []
      | (w, some p) => loopCalls env enc (2 * data.len + 2) w s.array.state p data

/-- The bytes that calls of the encoder finish, one after the other. -/
def finishedBy (enc : Encoder) (calls : List EncCall) : List Byte :=
  calls.flatMap (EncCall.chunk enc)

/-! ## What the zones are for -/

/-- All parts are pushed, each once. -/
def pushAll (env : Env) (enc : Option Encoder) (s : State) : List (List Byte) → State
  | [] => s
  | part :: parts =>
      pushAll env enc (if part = [] then s else (s.push env enc (.bytes part)).1) parts

/-- Both zones are the same. -/
def Same (s s' : State) : Prop := s'.data = s.data ∧ s'.unfinished = s.unfinished

/-- A push without an encoder. -/
def RawPushed (data : Data) (s s' : State) (ret : Option (Except Error Nat)) : Prop :=
  if data.len = 0 then
    s'.data = s.data ++ s.unfinished ∧ s'.unfinished = []
  else
    (∃ e, ret = some (.error e)) ∧ Same s s' ∨
      ret = some (.ok data.len) ∧ s'.data = s.data ∧ s'.unfinished = s.unfinished ++ data.content

/-- What a call does with the zones. -/
def Done (env : Env) (enc : Option Encoder) (s : State) (call : Call) (s' : State)
    (r : Answer) : Prop :=
  match call with
  | .push data =>
      match enc with
      | none => ∃ ret, r = .pushed ret ∧ RawPushed data s s' ret
      | some enc => s'.data = s.data ++ finishedBy enc (pushCalls env enc s data)
  | .message part cont => r = .message (some true) ∧ s' = pushAll env enc s (part :: cont)
  | .shift len =>
      if len = 0 then Same s s'
      else if len ≤ s.data.length then
        r = .shifted true ∧ s'.data = s.data.drop len ∧ s'.unfinished = s.unfinished
      else r = .shifted false ∧ s' = s

def Does (env : Env) (enc : Option Encoder) (s : State) (call : Call) : Prop :=
  Done env enc s call ((machine env enc).step s call).1 ((machine env enc).step s call).2

/-- The zones lie in the buffer, which the array has to itself. -/
structure Fit (s : State) : Prop where
  empty : s.array.arr = none → s.array.state.done = 0 ∧ s.array.state.scratch = 0
  buffer : ∀ p, s.array.arr = some p → ∃ b, Private s.world p b ∧
    s.array.state.done + s.array.state.scratch ≤ b.used

/-- Nothing is in front of the zones, or they are empty. -/
def AtFront (s : State) : Prop :=
  (∀ b, s.buf = some b → b.used = s.array.state.done + s.array.state.scratch) ∨
    s.array.state.done + s.array.state.scratch = 0

/-- The encoder keeps what is finished.  Without one, and to move the zones, nothing is in front
    of them.  No message has a byte. -/
def Proper (env : Env) (enc : Option Encoder) (s : State) : Call → Prop
  | .push data =>
      match enc with
      | none => data.len = 0 ∨ AtFront s
      | some enc => ∀ c ∈ pushCalls env enc s data, c.Keeps enc
  | .message part cont => part = [] ∧ ∀ l ∈ cont, l = []
  | .shift len => len = 0 → AtFront s

/-- The bytes that a push finishes. -/
def finishedPush (env : Env) (enc : Option Encoder) (s : State) (data : Data) : List Byte :=
  match enc with
  | none => if data.len = 0 then s.unfinished else []
  | some enc => finishedBy enc (pushCalls env enc s data)

/-- The bytes that the parts of a message finish. -/
def finishedParts (env : Env) (enc : Option Encoder) (s : State) : List (List Byte) → List Byte
  | [] => []
  | part :: parts =>
      if part = [] then
        finishedParts env enc s parts
      else
        finishedPush env enc s (.bytes part) ++
          finishedParts env enc (s.push env enc (.bytes part)).1 parts

/-- The bytes that a call finishes. -/
def finished (env : Env) (enc : Option Encoder) (s : State) : Call → List Byte
  | .push data => finishedPush env enc s data
  | .message part cont => finishedParts env enc s (part :: cont)
  | .shift _ => []

/-- The number of finished bytes that a call removes. -/
def removed (s : State) : Call → Nat
  | .push _ => 0
  | .message _ _ => 0
  | .shift len => if len ≤ s.data.length then len else 0

/-- All bytes that a run finishes. -/
def allFinished (env : Env) (enc : Option Encoder) (s : State) : List Call → List Byte
  | [] => []
  | call :: calls =>
      finished env enc s call ++ allFinished env enc ((machine env enc).step s call).1 calls

/-- The number of all bytes that a run removes. -/
def allRemoved (env : Env) (enc : Option Encoder) (s : State) : List Call → Nat
  | [] => 0
  | call :: calls => removed s call + allRemoved env enc ((machine env enc).step s call).1 calls

/-! ## The encoder -/

/-- The finished bytes of a private buffer. -/
structure Ends (w : World) (p : Nat) (b : Buffer) (state : EncodeState) (fin : List Byte) :
    Prop where
  here : Private w p b
  fits : state.done + state.scratch ≤ b.used
  finished : b.mem.read (b.base + (b.used - (state.done + state.scratch))) state.done = fin

variable {env : Env} {enc : Encoder} {w w' : World} {p : Nat} {b : Buffer} {state : EncodeState}
  {fin : List Byte}

/-- A private buffer is never cut. -/
theorem detach_content (h : Private w p b) {len : Nat} {ret : Option Nat}
    (detach : bufferDetach env w p len = (w', ret)) (granted : w'.refused = false) :
    ∃ q b', ret = some q ∧ Private w' q b' ∧ b'.used = b.used ∧
      b'.mem.read b'.base b.used = b.mem.read b.base b.used := by
  by_cases room : len ≤ b.size
  · have sized : (b.traits.any fun traits => decide (traits.size = 0)) = false := by simp [h.traits]
    have keep : b.refs < 2 ∧ detachSize b.traits len ≤ b.size ∧ b.flags.immutable = false := by
      rw [h.refs, h.flags, h.traits]
      exact ⟨by decide, room, rfl⟩
    rw [detach_kept h.cell sized keep] at detach
    obtain ⟨rfl, rfl⟩ := Prod.mk.inj detach
    exact ⟨p, b, rfl, h, rfl, rfl⟩
  · have used := h.used
    obtain ⟨_, q, b', rfl, d⟩ := bufferDetach_private h (by omega) detach granted
    exact ⟨q, b', rfl, d.here, d.used, d.mem⟩

/-- What is read inside of the same content is the same. -/
theorem read_inside {m m' : Mem Byte} {a a' used : Nat} (same : m'.read a' used = m.read a used)
    (off : Nat) {n : Nat} (inside : off + n ≤ used) :
    m'.read (a' + off) n = m.read (a + off) n := by
  have tail : m'.read (a' + off) (used - off) = m.read (a + off) (used - off) := by
    rw [← Mem.drop_read _ _ _ _ (by omega), ← Mem.drop_read _ _ _ _ (by omega), same]
  have size : min n (used - off) = n := by omega
  rw [← size, ← Mem.take_read, ← Mem.take_read, tail]

theorem Ends.detach (h : Ends w p b state fin) {len : Nat} {ret : Option Nat}
    (detach : bufferDetach env w p len = (w', ret)) (granted : w'.refused = false) :
    ∃ q b', ret = some q ∧ Ends w' q b' state fin := by
  obtain ⟨q, b', rfl, here, used, mem⟩ := detach_content h.here detach granted
  have fits := h.fits
  refine ⟨q, b', rfl, here, by omega, ?_⟩
  rw [used, read_inside mem _ (by omega), h.finished]

/-- A call of the encoder that keeps what is finished adds its bytes. -/
theorem Ends.call (h : Ends w p b state fin) {src : Option Data} {state' : EncodeState}
    {mem : Mem Byte} {cont : Except Error Nat} {off : Nat}
    (place : off = b.used - (state.done + state.scratch)) {c : EncCall}
    (here : c = ⟨state, b.mem, b.base + off, b.size - off, src⟩) (keeps : c.Keeps enc)
    (result : c.result enc = (state', mem, cont)) :
    off + (state'.done + state'.scratch) ≤ b.size ∧
      Ends (w.store p { b with mem := mem, used := off + (state'.done + state'.scratch) }) p
        { b with mem := mem, used := off + (state'.done + state'.scratch) } state'
        (fin ++ c.chunk enc) := by
  have done := keeps.done
  have fits := keeps.fits
  have kept := keeps.mem
  have finished := h.finished
  have used := h.here.used
  rw [result] at done fits kept
  subst here
  simp only at done fits kept
  have room : off + (state'.done + state'.scratch) ≤ b.size := by omega
  refine ⟨room, h.here.store rfl rfl rfl rfl rfl room, by simp only; omega, ?_⟩
  simp only [Nat.add_sub_cancel, EncCall.chunk, result]
  rw [show state'.done = state.done + (state'.done - state.done) by omega, Mem.read_append,
    ← finished, ← place]
  congr 1
  · exact Mem.read_congr fun i _ high => kept i high
  · congr 1
    omega

/-- The loop of `mpt_array_push` adds what the calls of the encoder finish. -/
theorem pushLoop_ends {rounds : Nat} {data : Data} {max : Nat} (h : Ends w p b state fin)
    (keeps : ∀ c ∈ loopCalls env enc rounds w state p data, c.Keeps enc) {a : EncodeArray}
    {ret : Option (Except Error Nat)}
    (run : pushLoop env enc rounds w state p data max = (w', a, ret))
    (granted : w'.refused = false) :
    ∃ q b', a.arr = some q ∧
      Ends w' q b' a.state (fin ++ finishedBy enc (loopCalls env enc rounds w state p data)) := by
  induction rounds generalizing w p b state fin data max with
  | zero =>
      obtain ⟨rfl, rfl, _⟩ := run
      exact ⟨p, b, rfl, by simpa [loopCalls, finishedBy] using h⟩
  | succ rounds ih =>
      have fits := h.fits
      rw [pushLoop] at run
      rw [loopCalls] at keeps ⊢
      simp only [h.here.cell, if_neg (Nat.not_lt.mpr fits)] at run keeps ⊢
      generalize place : b.used - (state.done + state.scratch) = off at run keeps ⊢
      generalize source : (if data.len = 0 then none else some data) = src at run keeps ⊢
      generalize here : (⟨state, b.mem, b.base + off, b.size - off, src⟩ : EncCall) = c at keeps ⊢
      have result : enc state b.mem (some ⟨b.base + off, b.size - off⟩) src = c.result enc := by
        rw [← here]
        rfl
      rw [result] at run
      have first : c.Keeps enc := keeps c (by simp)
      rcases answer : c.result enc with ⟨state', mem, cont⟩
      simp only [answer] at run keeps ⊢
      obtain ⟨room, next⟩ := h.call place.symm here.symm first answer
      rw [if_neg (Nat.not_lt.mpr room)] at run
      have chunks : ∀ cs,
          fin ++ finishedBy enc (c :: cs) = fin ++ c.chunk enc ++ finishedBy enc cs := by
        intro cs
        simp only [finishedBy, List.flatMap_cons, List.append_assoc]
      have alone : fin ++ finishedBy enc [c] = fin ++ c.chunk enc := by simp [finishedBy]
      cases cont with
      | error e =>
          cases e with
          | missingBuffer =>
              simp only at run keeps ⊢
              generalize w.store p _ = w₁ at next run keeps ⊢
              rcases detach : bufferDetach env w₁ p (b.size + 64) with ⟨w₂, ret₂⟩
              simp only [detach] at run keeps ⊢
              cases ret₂ with
              | none =>
                  obtain ⟨rfl, rfl, _⟩ := run
                  obtain ⟨_, _, eq, _⟩ := next.detach detach granted
                  cases eq
              | some q =>
                  simp only at run keeps ⊢
                  have plain : w₂.refused = false := by
                    have before := congrArg (fun r => r.1.refused) run
                    exact pushLoop_refused (before.trans granted)
                  obtain ⟨q', b₂, eq, moved⟩ := next.detach detach plain
                  obtain rfl := Option.some.inj eq
                  rw [chunks]
                  exact ih moved (fun c later => keeps c (List.mem_cons_of_mem _ later)) run
          | _ =>
              simp only at run ⊢
              obtain ⟨rfl, rfl, _⟩ := run
              exact ⟨p, _, rfl, by rw [alone]; exact next⟩
      | ok cont =>
          cases data with
          | null n =>
              obtain ⟨rfl, rfl, _⟩ := run
              exact ⟨p, _, rfl, by rw [alone]; exact next⟩
          | bytes l =>
              simp only at run keeps ⊢
              by_cases nothing : l.length = 0
              · rw [if_pos nothing] at run
                rw [if_pos (show l.length - cont = 0 by omega)]
                obtain ⟨rfl, rfl, _⟩ := run
                exact ⟨p, _, rfl, by rw [alone]; exact next⟩
              · have given : c.src = some (.bytes l) := by
                  rw [← here, ← source]
                  exact if_neg nothing
                have consumed : cont ≤ l.length := first.consumed l cont given (by rw [answer])
                rw [if_neg nothing, if_neg (Nat.not_lt.mpr consumed)] at run
                by_cases all : l.length - cont = 0
                · rw [if_pos all] at run keeps ⊢
                  obtain ⟨rfl, rfl, _⟩ := run
                  exact ⟨p, _, rfl, by rw [alone]; exact next⟩
                · rw [if_neg all] at run keeps ⊢
                  rw [chunks]
                  exact ih next (fun c later => keeps c (List.mem_cons_of_mem _ later)) run

theorem Fit.ends {s : State} (fit : Fit s) {p : Nat} (arr : s.array.arr = some p) :
    ∃ b, Ends s.world p b s.array.state s.data := by
  obtain ⟨b, here, fits⟩ := fit.buffer p arr
  refine ⟨b, here, fits, ?_⟩
  simp only [State.data, State.buf, arr, Option.bind_some, here.cell]

theorem data_of {s : State} {fin : List Byte} (arr : s.array.arr = some p)
    (h : Ends s.world p b s.array.state fin) : s.data = fin := by
  simp only [State.data, State.buf, arr, Option.bind_some, h.here.cell]
  exact h.finished

theorem Ends.fit {s : State} (arr : s.array.arr = some p) (h : Ends s.world p b s.array.state fin) :
    Fit s where
  empty nothing := by rw [arr] at nothing; cases nothing
  buffer q eq := by
    rw [arr] at eq
    obtain rfl := Option.some.inj eq
    exact ⟨b, h.here, h.fits⟩

/-- A push with an encoder adds what its calls finish. -/
theorem push_encoded {s : State} (fit : Fit s) {data : Data}
    (keeps : ∀ c ∈ pushCalls env enc s data, c.Keeps enc)
    (granted : (s.push env (some enc) data).1.world.refused = false) :
    Fit (s.push env (some enc) data).1 ∧
      (s.push env (some enc) data).1.data =
        s.data ++ finishedBy enc (pushCalls env enc s data) := by
  unfold State.push at granted ⊢
  rcases run : arrayPush env (some enc) s.world s.array data with ⟨w', a, ret⟩
  simp only [run] at granted ⊢
  suffices ∃ p b, a.arr = some p ∧
      Ends w' p b a.state (s.data ++ finishedBy enc (pushCalls env enc s data)) by
    obtain ⟨p, b, arr, ends⟩ := this
    exact ⟨Ends.fit (s := ⟨w', a⟩) arr ends, data_of (s := ⟨w', a⟩) arr ends⟩
  unfold arrayPush at run
  unfold pushCalls at keeps ⊢
  simp only at run keeps ⊢
  have plain : ∀ {w₁ q},
      pushLoop env enc (2 * data.len + 2) w₁ s.array.state q data 0 = (w', a, ret) →
      w₁.refused = false := by
    intro w₁ q run
    have before := congrArg (fun r => r.1.refused) run
    exact pushLoop_refused (before.trans granted)
  cases arr : s.array.arr with
  | none =>
      obtain ⟨done, scratch⟩ := fit.empty arr
      simp only [arr, done, scratch, Nat.add_zero, ne_eq, not_true_eq_false, if_false]
        at run keeps ⊢
      rcases alloc : bufferAlloc env s.world (if 64 < data.len then data.len else 64) .none with
        ⟨w₁, ret₁⟩
      simp only [alloc] at run keeps ⊢
      cases ret₁ with
      | none =>
          obtain ⟨rfl, rfl, _⟩ := run
          obtain ⟨_, eq, _⟩ := bufferAlloc_granted env s.world _ alloc granted
          cases eq
      | some q =>
          simp only at run keeps ⊢
          obtain ⟨_, eq, b, here, used, _⟩ := bufferAlloc_granted env s.world _ alloc (plain run)
          obtain rfl := Option.some.inj eq
          have nothing : s.data = [] := by simp [State.data, State.buf, arr]
          have start : Ends w₁ s.world.mallocs b s.array.state s.data := by
            refine ⟨here, by omega, ?_⟩
            rw [nothing, done]
            rfl
          obtain ⟨q, b', eq, ends⟩ := pushLoop_ends start keeps run granted
          exact ⟨q, b', eq, ends⟩
  | some p =>
      obtain ⟨b, ends⟩ := fit.ends arr
      simp only [arr, ends.here.cell, ends.here.traits, Option.isSome_none, Bool.false_eq_true,
        if_false] at run keeps ⊢
      generalize (if 64 < data.len then data.len else 64) = add at run keeps ⊢
      rcases detach : bufferDetach env s.world p
        (s.array.state.done + s.array.state.scratch + add) with ⟨w₁, ret₁⟩
      simp only [detach] at run keeps ⊢
      cases ret₁ with
      | none =>
          obtain ⟨rfl, rfl, _⟩ := run
          obtain ⟨_, _, eq, _⟩ := ends.detach detach granted
          cases eq
      | some q =>
          simp only at run keeps ⊢
          obtain ⟨_, b₁, eq, moved⟩ := ends.detach detach (plain run)
          obtain rfl := Option.some.inj eq
          obtain ⟨q, b', eq, ends⟩ := pushLoop_ends moved keeps run granted
          exact ⟨q, b', eq, ends⟩

/-! ## Without an encoder -/

theorem Fit.zones {s : State} (arr : s.array.arr = some p) (here : Private s.world p b) :
    s.data = b.mem.read (b.base + (b.used - (s.array.state.done + s.array.state.scratch)))
        s.array.state.done ∧
      s.unfinished =
        b.mem.read (b.base + (b.used - s.array.state.scratch)) s.array.state.scratch := by
  simp only [State.data, State.unfinished, State.buf, arr, Option.bind_some, here.cell, and_self]

theorem poke_private (h : Private w p b) {used : Nat} (off : Nat) (l : List Byte)
    (le : used ≤ b.size) (room : off + l.length ≤ b.size) :
    Private (poke w p { b with used := used } off l) p ({ b with used := used }.put off l) := by
  unfold poke
  rw [if_neg (Nat.not_lt.mpr room)]
  exact h.store rfl rfl rfl rfl rfl le

/-- Bytes put behind both zones, which start the buffer, are unfinished. -/
theorem raw_put {s : State} (here : Private w p b) {src : List Byte} {max : Nat}
    (place : max = s.array.state.done + s.array.state.scratch) (room : max + src.length ≤ b.size)
    (data : b.mem.read b.base s.array.state.done = s.data)
    (unfinished : b.mem.read (b.base + s.array.state.done) s.array.state.scratch = s.unfinished)
    {s' : State} (after : s' = ⟨poke w p { b with used := max + src.length } max src,
      ⟨⟨s.array.state.ctx, s.array.state.done, s.array.state.scratch + src.length⟩, some p⟩⟩) :
    Fit s' ∧ s'.data = s.data ∧ s'.unfinished = s.unfinished ++ src := by
  have here' : Private s'.world p ({ b with used := max + src.length }.put max src) := by
    rw [after]
    exact poke_private here max src room room
  have arr : s'.array.arr = some p := by rw [after]
  obtain ⟨first, second⟩ := Fit.zones arr here'
  subst after
  refine ⟨⟨by simp, ?_⟩, ?_, ?_⟩
  · intro q eq
    obtain rfl := Option.some.inj eq
    exact ⟨_, here', by simp only [Buffer.put]; omega⟩
  · rw [first, ← data]
    have start :
        max + src.length - (s.array.state.done + (s.array.state.scratch + src.length)) = 0 := by
      omega
    simp only [Buffer.put, start, Nat.add_zero]
    exact Mem.read_write_disjoint _ _ (.inl (by omega))
  · rw [second, ← unfinished]
    have start : max + src.length - (s.array.state.scratch + src.length) = s.array.state.done := by
      omega
    have behind : b.base + s.array.state.done + s.array.state.scratch = b.base + max := by omega
    simp only [Buffer.put, start]
    rw [Mem.read_append, behind, Mem.read_write_self]
    congr 1
    exact Mem.read_write_disjoint _ _ (.inl (by omega))

/-- The end of a part makes all of it finished. -/
theorem push_end {s : State} (fit : Fit s) {data : Data} (empty : data.len = 0) :
    Fit (s.push env none data).1 ∧
      RawPushed data s (s.push env none data).1 (s.push env none data).2 := by
  have answer : s.push env none data =
      (⟨s.world, ⟨⟨s.array.state.ctx, s.array.state.done + s.array.state.scratch, 0⟩, s.array.arr⟩⟩,
        some (.ok 0)) := by
    simp only [State.push, arrayPush, pushRaw, if_pos empty]
  unfold RawPushed
  rw [answer, if_pos empty]
  cases arr : s.array.arr with
  | none =>
      obtain ⟨done, scratch⟩ := fit.empty arr
      refine ⟨⟨fun _ => by simp only [done, scratch, and_self], by simp⟩, ?_, ?_⟩ <;>
        simp [State.data, State.unfinished, State.buf, arr]
  | some p =>
      obtain ⟨b, here, fits⟩ := fit.buffer p arr
      obtain ⟨data, unfinished⟩ := Fit.zones arr here
      refine ⟨⟨by simp, ?_⟩, ?_, ?_⟩
      · intro q eq
        obtain rfl := Option.some.inj eq
        exact ⟨b, here, fits⟩
      · rw [data, unfinished]
        obtain ⟨first, _⟩ := Fit.zones (s := ⟨s.world,
          ⟨⟨s.array.state.ctx, s.array.state.done + s.array.state.scratch, 0⟩, some p⟩⟩) rfl here
        rw [first]
        simp only [Nat.add_zero, Mem.read_append]
        congr 2
        omega
      · simp [State.unfinished, State.buf, here.cell]

/-- `mpt_array_insert` to an array without a buffer. -/
theorem arrayInsert_first {len : Nat} {arr : Array} {ret : Option Nat}
    (insert : arrayInsert env w none 0 len = (w', arr, ret)) (granted : w'.refused = false) :
    ret.isSome ∧ ∃ p b, arr = some p ∧ Private w' p b ∧ len ≤ b.size := by
  have small : ¬ longRoom 0 < len := by
    intro large
    unfold arrayInsert at insert
    rw [if_pos large] at insert
    obtain ⟨rfl, _⟩ := insert
    cases granted
  have total : (len + 0) % sizeLimit = len := by
    unfold longRoom longMax sizeLimit at *
    omega
  unfold arrayInsert at insert
  rw [if_neg small] at insert
  simp only [total] at insert
  rcases alloc : bufferAlloc env w len .none with ⟨w₁, ret₁⟩
  simp only [alloc] at insert
  cases ret₁ with
  | none =>
      obtain ⟨rfl, _⟩ := insert
      obtain ⟨_, eq, _⟩ := bufferAlloc_granted env w len alloc granted
      cases eq
  | some p =>
      simp only at insert
      have plain : w₁.refused = false := by
        split at insert
        · obtain ⟨rfl, _⟩ := insert
          exact granted
        · obtain ⟨rfl, _⟩ := insert
          rwa [poke_refused] at granted
      obtain ⟨_, eq, b, here, _, size⟩ := bufferAlloc_granted env w len alloc plain
      obtain rfl := Option.some.inj eq
      have enough : len ≤ b.size := by
        rw [size]
        exact le_roomFor len
      simp only [here.cell, List.replicate_zero] at insert
      obtain ⟨rfl, rfl, rfl⟩ := insert
      exact ⟨rfl, _, _, rfl, poke_private here 0 [] enough (Nat.zero_le _), enough⟩

section Raw

variable {s : State} {src : List Byte} (full : ¬ (Data.bytes src).len = 0)
  (raw : ((s.array.arr.bind s.world.cells).any fun b => b.traits.isSome) = false)

include full raw

/-- The memory for raw data is asked for when its place is made. -/
theorem insert_granted (granted : (s.push env none (.bytes src)).1.world.refused = false)
    {arr : Array} {ret : Option Nat} (insert : arrayInsert env s.world s.array.arr
      (s.array.state.done + s.array.state.scratch) src.length = (w', arr, ret)) :
    w'.refused = false := by
  unfold State.push arrayPush pushRaw at granted
  simp only [if_neg full, raw, insert, Bool.false_eq_true, if_false] at granted
  cases ret with
  | none => exact granted
  | some n =>
      simp only at granted
      split at granted
      · exact granted
      · rwa [poke_refused] at granted

/-- Where the place for raw data behind both zones is made, they are pushed. -/
theorem raw_pushed {q n : Nat} (insert : arrayInsert env s.world s.array.arr
      (s.array.state.done + s.array.state.scratch) src.length = (w', some q, some n))
    (here : Private w' q b)
    (room : s.array.state.done + s.array.state.scratch + src.length ≤ b.size)
    (data : b.mem.read b.base s.array.state.done = s.data)
    (unfinished : b.mem.read (b.base + s.array.state.done) s.array.state.scratch = s.unfinished) :
    Fit (s.push env none (.bytes src)).1 ∧
      RawPushed (.bytes src) s (s.push env none (.bytes src)).1
        (s.push env none (.bytes src)).2 := by
  have answer : s.push env none (.bytes src) = (⟨poke w' q { b with used :=
        s.array.state.done + s.array.state.scratch + src.length }
        (s.array.state.done + s.array.state.scratch) src,
      ⟨⟨s.array.state.ctx, s.array.state.done, s.array.state.scratch + src.length⟩, some q⟩⟩,
      some (.ok src.length)) := by
    unfold State.push arrayPush pushRaw
    simp only [if_neg full, raw, insert, Bool.false_eq_true, if_false, Option.bind_some, here.cell,
      Option.map_some]
  obtain ⟨fit', same, more⟩ := raw_put here rfl room data unfinished rfl
  unfold RawPushed
  rw [answer, if_neg full]
  exact ⟨fit', .inr ⟨rfl, same, more⟩⟩

end Raw

/-- Raw data follows the unfinished bytes where nothing was taken from the front. -/
theorem push_raw {s : State} (fit : Fit s) {data : Data} (proper : data.len = 0 ∨ AtFront s)
    (granted : (s.push env none data).1.world.refused = false) :
    Fit (s.push env none data).1 ∧
      RawPushed data s (s.push env none data).1 (s.push env none data).2 := by
  by_cases empty : data.len = 0
  · exact push_end fit empty
  have front : AtFront s := proper.resolve_left empty
  cases data with
  | null n =>
      have answer : s.push env none (.null n) = (s, some (.error .missingData)) := by
        simp only [State.push, arrayPush, pushRaw, if_neg empty]
      unfold RawPushed
      rw [answer, if_neg empty]
      exact ⟨fit, .inl ⟨⟨_, rfl⟩, rfl, rfl⟩⟩
  | bytes src =>
      rcases insert : arrayInsert env s.world s.array.arr
        (s.array.state.done + s.array.state.scratch) src.length with ⟨w', arr', ret⟩
      cases arr : s.array.arr with
      | none =>
          have raw : ((s.array.arr.bind s.world.cells).any fun b => b.traits.isSome) = false := by
            rw [arr]
            rfl
          have plain := insert_granted empty raw granted insert
          obtain ⟨done, scratch⟩ := fit.empty arr
          have first := insert
          rw [arr, done, scratch] at first
          obtain ⟨isSome, q, b, rfl, here, room⟩ := arrayInsert_first first plain
          obtain ⟨n, rfl⟩ := Option.isSome_iff_exists.mp isSome
          obtain ⟨data, unfinished⟩ : s.data = [] ∧ s.unfinished = [] := by
            simp [State.data, State.unfinished, State.buf, arr]
          refine raw_pushed empty raw insert here (by omega) ?_ ?_
          · rw [data, done, Mem.read_zero]
          · rw [unfinished, scratch, Mem.read_zero]
      | some p =>
          obtain ⟨b, here, fits⟩ := fit.buffer p arr
          obtain ⟨data, unfinished⟩ := Fit.zones arr here
          have raw : ((s.array.arr.bind s.world.cells).any fun b => b.traits.isSome) = false := by
            simp only [arr, Option.bind_some, here.cell, Option.any_some, here.traits,
              Option.isSome_none]
          have plain := insert_granted empty raw granted insert
          have behind := insert
          rw [arr] at behind
          obtain ⟨_, isSome, q, b', rfl, inserted⟩ := arrayInsert_private here fits behind plain
          obtain ⟨n, rfl⟩ := Option.isSome_iff_exists.mp isSome
          have used := inserted.used
          have size := inserted.here.used
          have before : ∀ off n, off + n ≤ s.array.state.done + s.array.state.scratch →
              b'.mem.read (b'.base + off) n = b.mem.read (b.base + off) n :=
            fun off n inside => read_inside inserted.front off inside
          refine raw_pushed empty raw insert inserted.here (by omega) ?_ ?_
          · rw [data]
            rcases front with all | nothing
            · have all := all b (by simp only [State.buf, arr, Option.bind_some, here.cell])
              rw [all, Nat.sub_self]
              exact before 0 _ (by omega)
            · rw [show s.array.state.done = 0 by omega, Mem.read_zero, Mem.read_zero]
          · rw [unfinished]
            rcases front with all | nothing
            · have all := all b (by simp only [State.buf, arr, Option.bind_some, here.cell])
              rw [show b.used - s.array.state.scratch = s.array.state.done by omega]
              exact before _ _ (by omega)
            · rw [show s.array.state.scratch = 0 by omega, Mem.read_zero, Mem.read_zero]

/-! ## Removal and messages -/

/-- Finished bytes are removed from the front. -/
theorem shift_removes {s : State} (fit : Fit s) {len : Nat} (some : len ≠ 0)
    (inside : len ≤ s.array.state.done) :
    Fit (s.shift len).1 ∧ (s.shift len).2 = true ∧ (s.shift len).1.data = s.data.drop len ∧
      (s.shift len).1.unfinished = s.unfinished := by
  have answer : s.shift len = ({ s with array := { s.array with
      state := { s.array.state with done := s.array.state.done - len } } }, true) := by
    simp only [State.shift, if_neg some, if_neg (Nat.not_lt.mpr inside)]
  rw [answer]
  cases arr : s.array.arr with
  | none =>
      obtain ⟨done, _⟩ := fit.empty arr
      omega
  | some p =>
      obtain ⟨b, here, fits⟩ := fit.buffer p arr
      obtain ⟨data, _⟩ := Fit.zones arr here
      refine ⟨⟨by simp [arr], ?_⟩, rfl, ?_, ?_⟩
      · intro q eq
        rw [arr] at eq
        obtain rfl := Option.some.inj eq
        exact ⟨b, here, by simp only; omega⟩
      · rw [data, Mem.drop_read _ _ _ _ inside]
        simp only [State.data, State.buf, arr, Option.bind_some, here.cell]
        congr 1
        omega
      · simp only [State.unfinished, State.buf, arr]

theorem length_data {s : State} (fit : Fit s) : s.data.length = s.array.state.done := by
  cases arr : s.array.arr with
  | none =>
      obtain ⟨done, _⟩ := fit.empty arr
      simp [State.data, State.buf, arr, done]
  | some p =>
      obtain ⟨b, here, _⟩ := fit.buffer p arr
      rw [(Fit.zones arr here).1, Mem.length_read]

/-- What is at the front, or nothing at all, is moved there. -/
theorem shift_front {s : State} (fit : Fit s) (proper : AtFront s) :
    Fit (s.shift 0).1 ∧ Same s (s.shift 0).1 := by
  have answer : s.shift 0 = s.shiftFront := by simp only [State.shift, if_pos]
  rw [answer]
  unfold State.shiftFront
  cases arr : s.array.arr with
  | none => exact ⟨fit, rfl, rfl⟩
  | some p =>
      obtain ⟨b, here, fits⟩ := fit.buffer p arr
      simp only [Option.bind_some, here.cell, Option.map_some]
      by_cases front : b.used ≤ s.array.state.done + s.array.state.scratch
      · rw [if_pos front]
        exact ⟨fit, rfl, rfl⟩
      · have nothing : s.array.state.done + s.array.state.scratch = 0 := by
          rcases proper with whole | nothing
          · have all := whole b (by simp only [State.buf, arr, Option.bind_some, here.cell])
            omega
          · exact nothing
        have done : s.array.state.done = 0 := by omega
        have scratch : s.array.state.scratch = 0 := by omega
        rw [if_neg front]
        let b' : Buffer := { b with
          mem := (b.mem.write b.base (b.mem.read (b.base - 0) 0)).write b.base (List.replicate 0 0)
          used := 0 }
        have here' : Private (s.world.store p b') p b' :=
          here.store rfl rfl rfl rfl rfl (Nat.zero_le _)
        simp only [nothing]
        refine ⟨⟨by simp [arr], ?_⟩, ?_, ?_⟩
        · intro q eq
          rw [arr] at eq
          obtain rfl := Option.some.inj eq
          exact ⟨_, here', by simp only; omega⟩
        · simp [State.data, State.buf, arr, here.cell, done]
        · simp [State.unfinished, State.buf, arr, here.cell, scratch]

/-- A message without a byte comes to its end. -/
theorem messageLoop_empty {env : Env} {enc : Option Encoder} {s : State} (clen rounds : Nat) :
    s.messageLoop env enc [] clen (clen + 1 + rounds) = some (s, true) := by
  induction clen with
  | zero => rw [Nat.zero_add, Nat.add_comm, State.messageLoop, if_pos rfl]
  | succ clen ih =>
      rw [show clen + 1 + 1 + rounds = clen + 1 + rounds + 1 by omega, State.messageLoop,
        if_pos rfl]
      exact ih

/-- With a byte in the first part no number of rounds is enough to push a message. -/
theorem messageLoop_part {env : Env} {enc : Option Encoder} {s s' : State} {part : List Byte}
    (some : part ≠ []) {clen rounds : Nat} :
    s.messageLoop env enc part clen rounds ≠ Option.some (s', true) := by
  induction rounds generalizing s with
  | zero => exact nofun
  | succ rounds ih =>
      unfold State.messageLoop
      rw [if_neg some]
      split
      · simp
      · simp
      · split
        · simp
        · exact ih

theorem pushAll_empty {env : Env} {enc : Option Encoder} {s : State} {parts : List (List Byte)}
    (empty : ∀ part ∈ parts, part = []) : pushAll env enc s parts = s := by
  induction parts with
  | nil => rfl
  | cons part parts ih =>
      rw [pushAll, if_pos (empty part List.mem_cons_self)]
      exact ih fun part later => empty part (List.mem_cons_of_mem _ later)

theorem finishedParts_empty {env : Env} {enc : Option Encoder} {s : State}
    {parts : List (List Byte)} (empty : ∀ part ∈ parts, part = []) :
    finishedParts env enc s parts = [] := by
  induction parts with
  | nil => rfl
  | cons part parts ih =>
      rw [finishedParts, if_pos (empty part List.mem_cons_self)]
      exact ih fun part later => empty part (List.mem_cons_of_mem _ later)

/-! ## Runs -/

variable {enc : Option Encoder}

/-- What a call does with the finished bytes. -/
def Follows (env : Env) (enc : Option Encoder) (s : State) (call : Call) : Prop :=
  removed s call ≤ s.data.length ∧
    ((machine env enc).step s call).1.data =
      (s.data ++ finished env enc s call).drop (removed s call)

theorem push_does {s : State} (fit : Fit s) {data : Data} (proper : Proper env enc s (.push data))
    (granted : (s.push env enc data).1.world.refused = false) :
    Fit (s.push env enc data).1 ∧ Does env enc s (.push data) ∧ Follows env enc s (.push data) := by
  cases enc with
  | none =>
      obtain ⟨next, pushed⟩ := push_raw fit proper granted
      refine ⟨next, ⟨_, rfl, pushed⟩, Nat.zero_le _, ?_⟩
      simp only [finished, finishedPush, removed, List.drop_zero]
      unfold RawPushed at pushed
      by_cases empty : data.len = 0
      · rw [if_pos empty] at pushed ⊢
        exact pushed.1
      · rw [if_neg empty] at pushed ⊢
        rw [List.append_nil]
        rcases pushed with ⟨_, same, _⟩ | ⟨_, same, _⟩ <;> exact same
  | some enc =>
      obtain ⟨next, pushed⟩ := push_encoded fit proper granted
      exact ⟨next, pushed, Nat.zero_le _, pushed⟩

theorem message_does {s : State} {cont : List (List Byte)} (empty : ∀ l ∈ cont, l = []) :
    ((machine env enc).step s (.message [] cont)).1 = s ∧ Does env enc s (.message [] cont) ∧
      Follows env enc s (.message [] cont) := by
  have answer : (machine env enc).step s (.message [] cont) = (s, .message (some true)) := by
    have count : rounds [] cont = cont.length + 1 + cont.flatten.length := by
      simp only [rounds, List.length_nil]
      omega
    simp only [machine, count, messageLoop_empty]
  have all : ∀ part ∈ [] :: cont, part = [] := by
    intro part here
    rcases List.mem_cons.mp here with rfl | here
    · rfl
    · exact empty part here
  simp only [Does, Done, Follows, answer, removed, finished, pushAll_empty all,
    finishedParts_empty all, List.append_nil, List.drop_zero, Nat.zero_le, and_self]

theorem shift_does {s : State} (fit : Fit s) {len : Nat} (proper : len = 0 → AtFront s) :
    Fit (s.shift len).1 ∧ Does env enc s (.shift len) ∧ Follows env enc s (.shift len) := by
  simp only [Follows, finished, List.append_nil, removed, length_data fit]
  by_cases front : len = 0
  · subst front
    obtain ⟨next, same⟩ := shift_front fit (proper rfl)
    refine ⟨next, ?_, by simp, ?_⟩
    · simp only [Does, Done, if_pos]
      exact same
    · refine same.1.trans ?_
      simp
  · by_cases inside : len ≤ s.array.state.done
    · obtain ⟨next, removed⟩ := shift_removes fit front inside
      refine ⟨next, ?_, ?_⟩
      · simp only [Does, Done, if_neg front, length_data fit, if_pos inside]
        exact ⟨congrArg Answer.shifted removed.1, removed.2⟩
      · rw [if_pos inside]
        exact ⟨inside, removed.2.1⟩
    · have answer : s.shift len = (s, false) := by
        simp only [State.shift, if_neg front, if_pos (Nat.not_le.mp inside)]
      simp only [Does, Done, if_neg front, length_data fit, if_neg inside]
      simp only [machine, answer, and_self, List.drop_zero, Nat.zero_le, and_true]
      exact fit

/-- A proper call does what it is for, unless memory is turned down. -/
theorem step_does {s : State} (fit : Fit s) {call : Call} (proper : Proper env enc s call)
    (granted : ((machine env enc).step s call).1.world.refused = false) :
    Fit ((machine env enc).step s call).1 ∧ Does env enc s call ∧ Follows env enc s call := by
  cases call with
  | push data => exact push_does fit proper granted
  | message part cont =>
      obtain ⟨rfl, empty⟩ := proper
      obtain ⟨same, does⟩ := message_does empty
      exact ⟨by rw [same]; exact fit, does⟩
  | shift len => exact shift_does fit proper

theorem pushRaw_refused {w : World} {a : EncodeArray} {data : Data}
    (granted : (pushRaw env w a data).1.refused = false) : w.refused = false := by
  unfold pushRaw at granted
  split at granted
  · exact granted
  · split at granted
    · exact granted
    · split at granted
      · exact granted
      · simp only at granted
        split at granted
        · rename_i insert
          exact arrayInsert_refused insert granted
        · rename_i insert
          refine arrayInsert_refused insert ?_
          split at granted
          · exact granted
          · rwa [poke_refused] at granted

theorem push_refused {s : State} {data : Data}
    (granted : (s.push env enc data).1.world.refused = false) : s.world.refused = false := by
  cases enc with
  | none => exact pushRaw_refused granted
  | some enc => exact arrayPush_refused granted

theorem messageLoop_refused {s s' : State} {part : List Byte} {clen rounds : Nat} {ok : Bool}
    (loop : s.messageLoop env enc part clen rounds = some (s', ok))
    (granted : s'.world.refused = false) : s.world.refused = false := by
  induction rounds generalizing s clen with
  | zero => cases loop
  | succ rounds ih =>
      unfold State.messageLoop at loop
      split at loop
      · split at loop
        · obtain ⟨rfl, _⟩ := loop
          exact granted
        · exact ih loop
      · split at loop
        · cases loop
        · rename_i pushed
          obtain ⟨rfl, _⟩ := loop
          have next : (s.push env enc (.bytes part)).1.world.refused = false := by
            rw [pushed]
            exact granted
          exact push_refused next
        · rename_i pushed
          have next : (s.push env enc (.bytes part)).1.world.refused = false := by
            rw [pushed]
            split at loop
            · obtain ⟨rfl, _⟩ := loop
              exact granted
            · exact ih loop
          exact push_refused next

/-- Memory that was refused stays refused. -/
theorem step_refused {s : State} {call : Call}
    (granted : ((machine env enc).step s call).1.world.refused = false) :
    s.world.refused = false := by
  cases call with
  | push data => exact push_refused granted
  | message part cont =>
      simp only [machine] at granted
      split at granted
      · exact granted
      · rename_i loop
        exact messageLoop_refused loop granted
  | shift len =>
      simp only [machine, State.shift, State.shiftFront] at granted
      split at granted
      · split at granted
        · exact granted
        · split at granted <;> exact granted
      · split at granted <;> exact granted

theorem after_refused {s : State} {calls : List Call}
    (granted : ((machine env enc).after s calls).world.refused = false) :
    s.world.refused = false := by
  induction calls generalizing s with
  | nil => exact granted
  | cons call calls ih => exact step_refused (ih granted)

/-- The zones of an encode array over any run. -/
theorem zones_kept {s : State} (fit : Fit s) {calls : List Call}
    (proper : (machine env enc).Meets (Proper env enc) s calls)
    (granted : ((machine env enc).after s calls).world.refused = false) :
    (machine env enc).Meets (Does env enc) s calls ∧
      ((machine env enc).after s calls).data =
        (s.data ++ allFinished env enc s calls).drop (allRemoved env enc s calls) := by
  induction calls generalizing s with
  | nil => exact ⟨trivial, by simp [Machine.after, allFinished, allRemoved]⟩
  | cons call calls ih =>
      obtain ⟨next, does, inside, data⟩ := step_does fit proper.1 (after_refused granted)
      obtain ⟨rest, all⟩ := ih next proper.2 granted
      refine ⟨⟨does, rest⟩, ?_⟩
      rw [Machine.after, all, data, allFinished, allRemoved, ← List.append_assoc]
      rw [← List.drop_append_of_le_length (by rw [List.length_append]; omega), List.drop_drop]

/-- A heap without buffers, and an array that was not used. -/
def unused : State := ⟨.empty, ⟨.init, none⟩⟩

theorem unused_fit : Fit unused where
  empty _ := ⟨rfl, rfl⟩
  buffer _ eq := by cases eq

/-- Two bytes are encoded, and what they become is removed in two pieces. -/
def twoBytes : List Call :=
  [.push (.bytes [1, 2]), .push (.null 0), .shift 3, .message [] [[]], .shift 1, .shift 0]

theorem twoBytes_proper :
    (machine granting (some Codec.cobs.encoder)).Meets (Proper granting (some Codec.cobs.encoder))
      unused twoBytes := by
  have first : ∀ c ∈ pushCalls granting Codec.cobs.encoder unused (.bytes [1, 2]),
      c.Keeps Codec.cobs.encoder := by decide
  refine ⟨first, ?_, nofun, ⟨rfl, by decide⟩, nofun, fun _ => .inr ?_, trivial⟩
  · unfold Proper
    decide
  · decide

theorem zones_kept_encoded :
    (machine granting (some Codec.cobs.encoder)).Meets (Does granting (some Codec.cobs.encoder))
      unused twoBytes ∧
    ((machine granting (some Codec.cobs.encoder)).after unused twoBytes).data =
      (unused.data ++ allFinished granting (some Codec.cobs.encoder) unused twoBytes).drop
        (allRemoved granting (some Codec.cobs.encoder) unused twoBytes) :=
  zones_kept unused_fit twoBytes_proper (by decide)

/-- Of two finished bytes one is left, and lost when it is moved to the front. -/
theorem zones_lost : ¬ ∀ calls, ((machine granting none).after unused calls).world.refused = false →
    (machine granting none).Meets (Does granting none) unused calls := by
  intro all
  obtain ⟨_, _, _, last, _⟩ :=
    all [.push (.bytes [1, 2]), .push (.null 0), .shift 1, .shift 0] (by decide)
  have same := last.1
  revert same
  decide

end Mpt.Heap.Zones
