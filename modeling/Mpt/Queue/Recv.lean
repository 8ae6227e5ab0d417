import Mpt.Queue.Content
import Mpt.Convert.Decode

/-! # Receiving messages from a queue

`mpt_queue_recv` lets the decoder work on the bytes of the ring, in one or two
parts, and removes what is no longer needed from its start.
-/

namespace Mpt

/-- `struct decode_queue` without its decoder. -/
structure DecodeQueue where
  data : Queue
  state : DecodeState

namespace Queue

/-- `vectorSet`: the parts of the used range. -/
def vectorSet (q : Queue) : List Iovec :=
  if q.max < q.off + q.len then
    [⟨q.base + q.off, q.max - q.off⟩, ⟨q.base, q.len - (q.max - q.off)⟩]
  else
    [⟨q.base + q.off, q.len⟩]

/-- The addresses of the content. -/
def ring (q : Queue) : List Nat := (List.range q.len).map fun i => q.base + (q.off + i) % q.max

end Queue

namespace DecodeQueue

/-- The bytes that `mpt_queue_shift` removes. -/
def spent (state : DecodeState) : Nat :=
  if (state.pos ≠ 0 ∨ state.len ≠ 0) ∧ state.pos < state.curr then state.pos else state.curr

/-- The position of the message behind that. -/
def keptPos (state : DecodeState) : Nat :=
  if state.pos ≠ 0 ∨ state.len ≠ 0 then
    if state.pos < state.curr then 0 else state.pos - state.curr
  else
    state.pos

/-- `mpt_queue_shift` -/
def shift (d : DecodeQueue) : DecodeQueue :=
  if d.state.curr = 0 then
    d
  else if spent d.state = 0 then
    d
  else
    match d.data.crop 0 (spent d.state) with
    | .error _ => d
    | .ok (q, _) =>
        ⟨q, { d.state with curr := d.state.curr - spent d.state, pos := keptPos d.state }⟩

/-- The result of a successful decoder call. -/
def answer (d : DecodeQueue) : DecodeQueue × Except Error Nat :=
  (d.shift, .ok (if d.state.msg = none then 0 else 1))

/-- `mpt_queue_recv` without a decoder: all there is makes a message. -/
def recvRaw (d : DecodeQueue) : DecodeQueue × Except Error Nat :=
  let len := d.data.len
  match d.state.msg with
  | some msg =>
      let done := d.state.pos + msg
      if len < done then
        (d, .error .badEncoding)
      else
        ((⟨d.data, { d.state with pos := done, msg := some d.state.len, len := len - done }⟩ :
          DecodeQueue).shift, .ok 1)
  | none =>
      let done := d.state.pos + d.state.len
      if len < done then
        (d, .error .badEncoding)
      else
        ((⟨d.data, { d.state with pos := done, len := len - done }⟩ : DecodeQueue).shift, .ok 0)

/-- `mpt_queue_recv` -/
def recv (dec : Option Decoder) (d : DecodeQueue) : DecodeQueue × Except Error Nat :=
  if d.data.len = 0 then
    (d, .error .missingData)
  else
    match dec with
    | none => recvRaw d
    | some dec =>
        let src := d.data.vectorSet
        match dec d.state d.data.mem (some src) src.length with
        | (state, mem, .ok _) => answer ⟨{ d.data with mem := mem }, state⟩
        | (state, mem, .error .missingBuffer) =>
            let q : Queue := { d.data with mem := mem }
            if q.max ≤ q.len then
              (⟨q, state⟩, .error .missingBuffer)
            else
              -- enlarge scratch space
              let room := q.max - q.len
              match q.pre room (0, 0) with
              | .error _ => (⟨q, state⟩, .error .missingBuffer)
              | .ok (q, _) =>
                  let state := { state with pos := state.pos + room, curr := state.curr + room }
                  let src := q.vectorSet
                  -- retry with bigger prefix space
                  match dec state q.mem (some src) src.length with
                  | (state, mem, .error e) => (⟨{ q with mem := mem }, state⟩, .error e)
                  | (state, mem, .ok _) => answer ⟨{ q with mem := mem }, state⟩
        | (state, mem, .error e) => (⟨{ d.data with mem := mem }, state⟩, .error e)

end DecodeQueue

namespace Queue

@[simp] theorem length_ring (q : Queue) : q.ring.length = q.len := by
  simp [ring]

theorem map_ring (q : Queue) : q.ring.map q.mem = q.content := by
  simp [ring, content, Function.comp_def]

theorem ring_nodup {q : Queue} (v : q.Valid) : q.ring.Nodup := by
  unfold ring
  refine List.Nodup.map_on ?_ List.nodup_range
  intro i hi j hj same
  have lenLe := v.len_le
  rw [List.mem_range] at hi hj
  exact wrap_inj v.off_le (by omega) (by omega) (by omega)

/-- The parts of the used range are its addresses. -/
theorem vectorSet_bytes {q : Queue} (v : q.Valid) :
    (Cobs.sourceParts q.vectorSet q.vectorSet.length).bytes = q.ring := by
  have offLe := v.off_le
  have lenLe := v.len_le
  have low : ∀ n, q.off + n ≤ q.max → n ≤ q.len →
      addresses (q.base + q.off) n = (List.range n).map fun i => q.base + (q.off + i) % q.max := by
    intro n fits le
    apply List.map_congr_left
    intro i hi
    rw [List.mem_range] at hi
    rw [wrap_eq offLe (by omega), if_pos (by omega), Nat.add_assoc]
  unfold vectorSet
  by_cases wrapped : q.max < q.off + q.len
  · have parts : q.len = (q.max - q.off) + (q.len - (q.max - q.off)) := by omega
    have high : addresses q.base (q.len - (q.max - q.off)) =
        (List.range (q.len - (q.max - q.off))).map
          fun i => q.base + (q.off + (q.max - q.off + i)) % q.max := by
      apply List.map_congr_left
      intro i hi
      rw [List.mem_range] at hi
      rw [wrap_eq offLe (by omega), if_neg (by omega)]
      congr 1
      omega
    rw [if_pos wrapped]
    unfold ring
    rw [parts, List.range_add, List.map_append, ← low _ (by omega) (by omega), List.map_map]
    rw [← parts, Function.comp_def, ← high]
    simp [Cobs.sourceParts, Message.bytes]
  · rw [if_neg wrapped, ring, ← low _ (by omega) (Nat.le_refl _)]
    simp [Cobs.sourceParts, Message.bytes]

theorem vectorSet_some (q : Queue) : q.vectorSet.length ≠ 0 := by
  unfold vectorSet
  split <;> simp

/-- Dropping bytes from the start drops their addresses. -/
theorem ring_dropFront {q : Queue} (v : q.Valid) (n : Nat) :
    (q.dropFront n).ring = q.ring.drop n := by
  apply List.ext_getElem
  · simp [dropFront]
  · intro i hi _
    have inside : n + i < q.len := by simp [dropFront] at hi; omega
    simp only [ring, List.getElem_drop, List.getElem_map, List.getElem_range, dropFront,
      advance_wrap v inside]

/-- Used bytes behind the end add addresses. -/
theorem ring_grow (q : Queue) (m : Mem Byte) (n : Nat) :
    ({ q with mem := m, len := q.len + n } : Queue).ring =
      q.ring ++ (List.range n).map fun i => q.base + (q.off + (q.len + i)) % q.max := by
  simp [ring, List.range_add, Function.comp_def]

end Queue

end Mpt
