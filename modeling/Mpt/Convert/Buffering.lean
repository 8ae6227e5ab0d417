import Mpt.Convert.EncodeSpec
import Mpt.Run

/-! # Encoding into a buffer that grows

A session calls an encoder on one target whose size never shrinks, with the data
in pieces.  The reference is the encoding of the whole message; `Sound` says that
the target holds exactly the reference of the finished messages and of the bytes
taken since, with the open block at `info.done`.
-/

namespace Mpt.Cobs.Buffering

/-- A call; the target has grown by `grow` bytes before it. -/
inductive Call where
  | data (src : List Byte) (some : src ≠ []) (grow : Nat)
  | finish (grow : Nat)

/-- The encoder with its target, and what it has been given so far: the finished
    messages and the bytes taken of the next one. -/
structure Session where
  info : EncodeState
  mem : Mem Byte
  size : Nat
  past : List (List Byte)
  taken : List Byte

/-- A fresh encoder on a target of `size` bytes. -/
def Session.start (m : Mem Byte) (size : Nat) : Session := ⟨.init, m, size, [], []⟩

def step (c : Codec) (base : Nat) (s : Session) : Call → Session × Except Error Nat
  | .data src _ grow =>
      let (info, mem, ret) :=
        c.encoder s.info s.mem (some ⟨base, s.size + grow⟩) (some (.bytes src))
      let taken := match ret with
        | .ok n => s.taken ++ src.take n
        | .error _ => s.taken
      (⟨info, mem, s.size + grow, s.past, taken⟩, ret)
  | .finish grow =>
      let (info, mem, ret) := c.encoder s.info s.mem (some ⟨base, s.size + grow⟩) none
      let (past, taken) := match ret with
        | .ok _ => (s.past ++ [s.taken], [])
        | .error _ => (s.past, s.taken)
      (⟨info, mem, s.size + grow, past, taken⟩, ret)

def machine (c : Codec) (base : Nat) : Machine Session Call (Except Error Nat) where
  step := step c base

/-- The encoded messages. -/
def references (c : Codec) (msgs : List (List Byte)) : List Byte :=
  msgs.flatMap (reference c.variant c.tail)

/-- The open block after the bytes taken. -/
def pending (v : Variant) (taken : List Byte) : Option (List Byte) :=
  if taken = [] then none else some (split v [] taken).2

/-- The target holds the reference encoding: `done` bytes of it are finished and
    the open block follows them with `scratch` bytes. -/
structure Sound (c : Codec) (base : Nat) (s : Session) : Prop where
  fits : s.info.done + s.info.scratch ≤ s.size
  holds : Holds c.variant s.info s.mem base
    (references c s.past ++ encoded c.variant (split c.variant [] s.taken).1)
    (pending c.variant s.taken)

/-- The data of the open block, as it stands in the target. -/
def openData (base : Nat) (s : Session) : List Byte :=
  s.mem.read (base + s.info.done + 1) (s.info.scratch - 1)

/-- The calls that keep the reference: no block of maximal size ends with the
    target, no message without data ends behind finished bytes, and a message
    that COBS/R has to end with a delimiter of its own finds room for it. -/
def Clean (c : Codec) (base : Nat) (s : Session) : Call → Prop
  | .data src _ grow =>
      ¬ Overrun c.variant (openData base s) (s.size + grow - s.info.done) src
  | .finish grow =>
      if s.info.scratch = 0 then
        s.info.done = 0 ∨ s.size + grow < s.info.done + 2
      else
        c.tail = true → Inline c.variant (openData base s) ∨
          s.info.done + s.info.scratch < s.size + grow

instance (c : Codec) (base : Nat) (s : Session) (grow : Nat) :
    Decidable (Clean c base s (.finish grow)) :=
  inferInstanceAs (Decidable (if s.info.scratch = 0 then _ else _))

variable {c : Codec} {base : Nat} {s : Session}

@[simp] theorem getD_pending (v : Variant) (taken : List Byte) :
    (pending v taken).getD [] = (split v [] taken).2 := by
  unfold pending
  split
  · simp_all [split]
  · rfl

theorem pending_append (v : Variant) {taken p : List Byte} (some : p ≠ []) :
    pending v (taken ++ p) = Option.some (split v [] (taken ++ p)).2 := by
  simp [pending, some]

theorem length_pending (v : Variant) (taken : List Byte) :
    (progress (pending v taken)).length ≤ (split v [] taken).2.length + 1 := by
  unfold pending
  split <;> simp [progress]

theorem Sound.openData (h : Sound c base s) :
    openData base s = (split c.variant [] s.taken).2 := by
  have data := h.holds.data
  have scratch := h.holds.scratch
  rw [getD_pending] at data
  unfold Buffering.openData
  rw [scratch]
  unfold pending
  split
  · simp_all [progress, split]
  · simpa [progress] using data

theorem sound_start (c : Codec) (base : Nat) (m : Mem Byte) (size : Nat) :
    Sound c base (.start m size) :=
  ⟨Nat.zero_le _, Holds.init _ _ _⟩

/-- A growing target does no harm. -/
theorem Sound.grow (h : Sound c base s) (grow : Nat) :
    Sound c base { s with size := s.size + grow } :=
  ⟨Nat.le_trans h.fits (Nat.le_add_right _ _), h.holds⟩

/-- The bytes that the state counts. -/
theorem Sound.count (h : Sound c base s) : s.info.done + s.info.scratch =
    (references c s.past).length + (encoded c.variant (split c.variant [] s.taken).1).length +
      (progress (pending c.variant s.taken)).length := by
  rw [h.holds.done, h.holds.scratch, List.length_append]

theorem split_taken (single : c.variant.pairs = false) (taken p : List Byte) :
    split c.variant [] (taken ++ p) =
      ((split c.variant [] taken).1 ++ (split c.variant (split c.variant [] taken).2 p).1,
        (split c.variant (split c.variant [] taken).2 p).2) :=
  split_append single [] taken p

theorem data_sound (single : c.variant.pairs = false) (target : base ≠ 0) (h : Sound c base s)
    (src : List Byte) (some : src ≠ []) (grow : Nat) :
    Sound c base (step c base s (.data src some grow)).1 ↔
      Clean c base s (.data src some grow) := by
  have holds := h.holds
  have count := h.count
  simp only [step, encoder_data, Clean, h.openData]
  rw [← getD_pending c.variant s.taken]
  by_cases room : s.info.done + ((pending c.variant s.taken).getD []).length + 1 < s.size + grow
  · by_cases excess : Overrun c.variant ((pending c.variant s.taken).getD [])
        (s.size + grow - s.info.done) src
    · obtain ⟨p, q, info', m', read, _, call, full, size⟩ :=
        encode_data_overrun (t := ⟨base, s.size + grow⟩) holds target excess
      rw [call]
      refine iff_of_false (fun sound => ?_) (fun clean => clean excess)
      have counted := sound.count
      have open_le := length_pending c.variant (s.taken ++ p)
      have done := holds.done
      simp only [read, List.take_left, List.length_append] at counted done
      simp only [split_taken single, encoded_append, List.length_append, getD_pending, splitSize,
        length_opened] at counted open_le size
      simp only at full size
      omega
    · obtain ⟨p, q, info', taken, call⟩ :=
        encode_data (t := ⟨base, s.size + grow⟩) holds target room some excess
      rw [call]
      refine iff_of_true ⟨taken.fits, ?_⟩ excess
      have read := taken.read
      have next := holds.write taken
      simp only [read, List.take_left, pending_append _ taken.some, split_taken single,
        encoded_append, ← List.append_assoc]
      simpa only [getD_pending] using next
  · have full : ¬ Overrun c.variant ((pending c.variant s.taken).getD [])
        (s.size + grow - s.info.done) src := by
      rintro ⟨p, x, q, _, _, _, size⟩
      have := le_splitSize (v := c.variant) ((pending c.variant s.taken).getD []) p
      omega
    have fits := h.fits
    rw [encode_data_missing (t := ⟨base, s.size + grow⟩) holds target (by simp only; omega)
      (Nat.not_lt.mp room) some]
    exact iff_of_true (h.grow grow) full

theorem reference_eq (c : Codec) (msg : List Byte) : reference c.variant c.tail msg =
    encoded c.variant (split c.variant [] msg).1 ++
      (closed c.variant c.tail (split c.variant [] msg).2 ++ [0]) := by
  rw [reference, List.append_assoc]

@[simp] theorem references_append (c : Codec) (msgs : List (List Byte)) (msg : List Byte) :
    references c (msgs ++ [msg]) = references c msgs ++ reference c.variant c.tail msg := by
  simp [references]

theorem reference_nil (c : Codec) : reference c.variant c.tail [] = [1, 0] := by
  simp [reference, split, closed, Inline, opened]

theorem finish_sound (target : base ≠ 0) (h : Sound c base s) (grow : Nat) :
    Sound c base (step c base s (.finish grow)).1 ↔ Clean c base s (.finish grow) := by
  have holds := h.holds
  have fits := h.fits
  by_cases nothing : s.taken = []
  · -- no byte since the last delimiter
    simp only [nothing, pending, if_true, split, encoded_nil, List.append_nil] at holds
    have scratch : s.info.scratch = 0 := holds.scratch
    simp only [step, Clean, scratch, if_true]
    rw [finish_empty (t := ⟨base, s.size + grow⟩) c holds target (by simp only; omega)]
    by_cases room : s.size + grow < s.info.done + 2
    · rw [if_pos room]
      exact iff_of_true (h.grow grow) (.inr room)
    · rw [if_neg room]
      simp only [nothing, room, or_false]
      constructor
      · intro sound
        have done : 2 = (references c (s.past ++ [[]]) ++ []).length := sound.holds.done
        have before := holds.done
        simp only [references_append, reference_nil, List.append_nil, List.length_append,
          List.length_cons, List.length_nil] at done
        omega
      · intro zero
        refine ⟨by simp only; omega, ?_⟩
        have next := holds.finish [1, 0]
        simp only [zero, List.length_cons, List.length_nil, Nat.zero_add] at next
        simpa [reference_nil, pending, split, zero] using next
  · have isOpen : pending c.variant s.taken = some (split c.variant [] s.taken).2 := by
      simp [pending, nothing]
    rw [isOpen] at holds
    have scratch : s.info.scratch = (split c.variant [] s.taken).2.length + 1 := by
      rw [holds.scratch, progress, length_opened]
    simp only [step, Clean, h.openData]
    rw [finish_open (t := ⟨base, s.size + grow⟩) c holds target (by simp only; omega),
      if_neg (show s.info.scratch ≠ 0 by omega)]
    by_cases stuck : c.tail = false ∧ s.size + grow ≤ s.info.done + s.info.scratch
    · rw [if_pos stuck]
      exact iff_of_true (h.grow grow) (by simp [stuck.1])
    · rw [if_neg stuck]
      have size := length_closed c.variant c.tail (split c.variant [] s.taken).2
      have next := holds.finish
        (closed c.variant c.tail (split c.variant [] s.taken).2 ++ [0])
      rw [List.append_assoc, ← reference_eq, ← references_append] at next
      have enough : Sound c base ⟨⟨0, s.info.done +
          (closed c.variant c.tail (split c.variant [] s.taken).2 ++ [0]).length, 0⟩,
          s.mem.write (base + s.info.done)
            (closed c.variant c.tail (split c.variant [] s.taken).2 ++ [0]),
          s.size + grow, s.past ++ [s.taken], []⟩ ↔ s.info.done +
          (closed c.variant c.tail (split c.variant [] s.taken).2 ++ [0]).length ≤
            s.size + grow := by
        constructor
        · intro sound
          exact sound.fits
        · intro fits
          exact ⟨fits, by simpa [pending, split] using next⟩
      rw [enough, List.length_append, size, List.length_singleton]
      cases e : c.tail with
      | false =>
          simp only [e, true_and, Bool.false_eq_true, false_and, if_false] at stuck ⊢
          exact iff_of_true (by omega) (by simp)
      | true =>
          by_cases inl : Inline c.variant (split c.variant [] s.taken).2
          · simp only [inl, and_self, if_true, true_or, implies_true, iff_true]
            omega
          · simp only [inl, and_false, if_false, false_or, true_implies]
            omega

/-- The two encoders without pair codes. -/
def Codec.Single (c : Codec) : Prop := c = .cobs ∨ c = .cobsR

theorem Codec.Single.pairs (h : Codec.Single c) : c.variant.pairs = false := by
  rcases h with rfl | rfl <;> rfl

/-- The target holds the reference encoding after every call of a session if and
    only if every call is clean. -/
theorem encode_regardless_of_buffer (c : Codec) (single : Codec.Single c) (target : base ≠ 0)
    (m : Mem Byte) (size : Nat) (calls : List Call) :
    (machine c base).Meets (Clean c base) (.start m size) calls ↔
      ∀ js, js <+: calls → Sound c base ((machine c base).after (.start m size) js) := by
  refine Machine.meets_iff ?_ (sound_start c base m size) calls
  intro s call sound
  cases call with
  | data src some grow => exact data_sound single.pairs target sound src some grow
  | finish grow => exact finish_sound target sound grow

/-- A push of data. -/
def Call.push (first : Byte) (rest : List Byte) (grow : Nat) : Call :=
  .data (first :: rest) (List.cons_ne_nil first rest) grow

/-- A session in which the target ends inside a message, at a data byte and at the
    terminator. -/
def growingExample : List Call :=
  [.push 7 [0, 8, 9] 0, .push 9 [] 1, .finish 0, .push 5 [] 2, .finish 0]

theorem growing_regardless_of_buffer :
    (machine .cobsR 16).Meets (Clean .cobsR 16) (.start (fun _ => 0) 4) growingExample ∧
      ∀ js, js <+: growingExample →
        Sound .cobsR 16 ((machine .cobsR 16).after (.start (fun _ => 0) 4) js) := by
  have meets : (machine .cobsR 16).Meets (Clean .cobsR 16) (.start (fun _ => 0) 4)
      growingExample := by
    refine ⟨not_overrun_short _ (by decide), not_overrun_short _ (by decide), ?_,
      not_overrun_short _ (by decide), ?_, trivial⟩
    · decide
    · decide
  exact ⟨meets, (encode_regardless_of_buffer .cobsR (.inr rfl) (by decide) (fun _ => 0) 4
    growingExample).mp meets⟩

/-- A block of maximal size that ends with the target: 253 bytes are taken, and one
    more than their encoding is counted. -/
theorem maximal_block_miscounted :
    let s := (machine .cobs 16).after (.start (fun _ => 0) 255)
      [.data (List.replicate 254 1) (by decide) 0]
    s.taken = List.replicate 253 1 ∧ s.info.done = 1 ∧ s.info.scratch = 254 ∧
      ¬ Sound .cobs 16 s := by
  intro s
  have taken : s.taken = List.replicate 253 1 := by decide +kernel
  have past : s.past = [] := by decide +kernel
  have state : s.info.done = 1 ∧ s.info.scratch = 254 := by decide +kernel
  refine ⟨taken, state.1, state.2, fun sound => ?_⟩
  have count := sound.count
  have size : (encoded (Codec.cobs).variant (split (Codec.cobs).variant [] s.taken).1).length +
      (progress (pending (Codec.cobs).variant s.taken)).length = 254 := by
    rw [taken]
    decide +kernel
  simp only [state.1, state.2, past, references, List.flatMap_nil, List.length_nil] at count
  omega

end Mpt.Cobs.Buffering
