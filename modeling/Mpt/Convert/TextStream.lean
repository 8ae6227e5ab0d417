import Mpt.Convert.Text

/-! # Commands from a stream of texts

The encoder appends what it accepts.  The decoder finds the end of each text, with one
exception: where it starts a message it searches from the header instead of the text,
and so goes wrong if the part that the header ends in has a zero behind it.
-/

namespace Mpt.Text

open Cobs (sourceParts)

/-- The encoded form of a sequence of texts. -/
def stream (texts : List (List Byte)) : List Byte := texts.flatMap (· ++ [0])

@[simp] theorem stream_nil : stream [] = [] := rfl

@[simp] theorem stream_cons (t : List Byte) (ts : List (List Byte)) :
    stream (t :: ts) = t ++ 0 :: stream ts := by
  simp [stream]

section Encode

/-- A call of the encoder: the size of the target, and the bytes or the end of a text. -/
structure EncodeCall where
  size : Nat
  source : Option (List Byte)

/-- What a call puts behind the bytes that are there. -/
def EncodeCall.taken (c : EncodeCall) : Except Error Nat → List Byte
  | .error _ => []
  | .ok n =>
      match c.source with
      | none => [0]
      | some l => l.take n

/-- All calls, with the bytes that they put. -/
def encodeRun (base : Nat) (info : TextState) (m : Mem Byte) :
    List EncodeCall → TextState × Mem Byte × List Byte
  | [] => (info, m, [])
  | c :: cs =>
      let (info, m, ret) := encodeString info m (some ⟨base, c.size⟩) (c.source.map .bytes)
      let (info, m, rest) := encodeRun base info m cs
      (info, m, c.taken ret ++ rest)

theorem encode_step {info : TextState} (zero : info.ctx = 0) (m : Mem Byte) (base : Nat)
    (c : EncodeCall) : ∃ info' m' ret,
      encodeString info m (some ⟨base, c.size⟩) (c.source.map .bytes) = (info', m', ret) ∧
      info'.ctx = 0 ∧ m'.read base info'.done = m.read base info.done ++ c.taken ret := by
  have same (e : Error) : ∃ info' m' ret, (info, m, (Except.error e : Except Error Nat)) =
      (info', m', ret) ∧ info'.ctx = 0 ∧
        m'.read base info'.done = m.read base info.done ++ c.taken ret :=
    ⟨info, m, .error e, rfl, zero, by simp [EncodeCall.taken]⟩
  unfold encodeString
  simp only
  split
  · exact same _
  · cases source : c.source with
    | none =>
        simp only [Option.map_none]
        split
        · exact same _
        · refine ⟨_, _, _, rfl, zero, ?_⟩
          simp only [EncodeCall.taken, source]
          rw [Mem.read_append, Mem.read_one, Mem.set_self, zero]
          congr 1
          exact Mem.read_write_disjoint _ _ (.inl (Nat.le_refl _))
    | some l =>
        simp only [Option.map_some]
        split
        · exact same _
        · split
          · exact same _
          · split
            · exact same _
            · refine ⟨_, _, _, rfl, zero, ?_⟩
              simp only [EncodeCall.taken, source]
              rw [Mem.read_append, Mem.read_write_self,
                Mem.read_write_disjoint _ _ (.inl (Nat.le_refl _)), List.length_take,
                List.take_eq_take_min]

theorem encode_run {info : TextState} (zero : info.ctx = 0) (m : Mem Byte) (base : Nat)
    (cs : List EncodeCall) :
    (encodeRun base info m cs).2.1.read base (encodeRun base info m cs).1.done =
      m.read base info.done ++ (encodeRun base info m cs).2.2 := by
  induction cs generalizing info m with
  | nil => simp [encodeRun]
  | cons c cs ih =>
      obtain ⟨info', m', ret, eq, zero', read⟩ := encode_step zero m base c
      simp only [encodeRun, eq]
      rw [ih zero', read, List.append_assoc]

end Encode

section Search

theorem findEnd_spec (m : Mem Byte) (base used len : Nat) (cont : List Iovec) :
    findEnd m base used len cont =
      match ((⟨base, used, cont⟩ : Message).bytes.map m).findIdx? (· = 0) with
      | some pos => (len + pos, true)
      | none => (len + (⟨base, used, cont⟩ : Message).bytes.length, false) := by
  induction cont generalizing base used len with
  | nil =>
      have bytes : (⟨base, used, []⟩ : Message).bytes = addresses base used := by
        simp [Message.bytes]
      cases found : (m.read base used).findIdx? (fun x => decide (x = 0)) with
      | some pos => simp only [findEnd, bytes, map_addresses, found]
      | none => simp only [findEnd, bytes, map_addresses, length_addresses, found]
  | cons next cont ih =>
      have whole : (⟨base, used, next :: cont⟩ : Message).bytes =
          addresses base used ++ (⟨next.base, next.len, cont⟩ : Message).bytes := by
        simp [Message.bytes]
      simp only [findEnd, whole, List.map_append, map_addresses, List.findIdx?_append,
        List.length_append, length_addresses]
      cases found : (m.read base used).findIdx? (fun x => decide (x = 0)) with
      | some pos => rfl
      | none =>
          simp only [Option.none_or, ih]
          cases (List.map m (⟨next.base, next.len, cont⟩ : Message).bytes).findIdx?
              (fun x => decide (x = 0)) with
          | some pos =>
              simp only [Option.map_some, Mem.length_read]
              rw [Nat.add_comm pos used, Nat.add_assoc]
          | none => simp only [Option.map_none, Nat.add_assoc]

/-- Where the current part has no zero, it does not matter from where it is searched. -/
theorem findEnd_shift {m : Mem Byte} {base base' used : Nat} (clear : 0 ∉ m.read base used)
    (clear' : 0 ∉ m.read base' used) (len : Nat) (cont : List Iovec) :
    findEnd m base used len cont = findEnd m base' used len cont := by
  have none {base : Nat} (clear : 0 ∉ m.read base used) :
      (m.read base used).findIdx? (fun x => decide (x = 0)) = none := by
    rw [List.findIdx?_eq_none_iff]
    intro x mem
    exact decide_eq_false fun same => clear (same ▸ mem)
  cases cont with
  | nil => simp only [findEnd, none clear, none clear']
  | cons next cont => simp only [findEnd, none clear, none clear']

/-- The end of a text in its stream, of which some bytes are read. -/
theorem findIdx?_text {t rest : List Byte} (free : 0 ∉ t) {j k : Nat} (inside : j ≤ t.length) :
    (((t ++ 0 :: rest).drop j).take k).findIdx? (· = 0) =
      if t.length - j < k then some (t.length - j) else none := by
  have none (l : List Byte) (clear : 0 ∉ l) : l.findIdx? (fun x => decide (x = 0)) = none := by
    rw [List.findIdx?_eq_none_iff]
    intro x mem
    exact decide_eq_false fun same => clear (same ▸ mem)
  have free' : 0 ∉ t.drop j := fun mem => free (List.mem_of_mem_drop mem)
  rw [List.drop_append_of_le_length inside, List.take_append, List.findIdx?_append,
    none _ fun mem => free' (List.mem_of_mem_take mem)]
  by_cases there : t.length - j < k
  · obtain ⟨n, size⟩ := Nat.exists_eq_add_of_lt there
    rw [if_pos there, List.length_take, List.length_drop, size,
      show t.length - j + n + 1 - (t.length - j) = n + 1 by omega, List.take_succ_cons,
      List.findIdx?_cons]
    simp
    omega
  · rw [if_neg there, List.length_drop, Nat.sub_eq_zero_of_le (by omega)]
    rfl

end Search

section Header

theorem bytes_succ (base used : Nat) (cont : List Iovec) :
    (⟨base, used + 1, cont⟩ : Message).bytes =
      base :: (⟨base + 1, used, cont⟩ : Message).bytes := by
  simp [Message.bytes, addresses_succ]

/-- The rest of the part that a header ends in, which starts at `off`. -/
def restOfPart (source : List Iovec) (sourcelen off : Nat) : List Nat :=
  let last := (((sourceParts source sourcelen).read off).1.read 1).1
  addresses (last.base + 1) (last.used - 1)

/-- The header is written to the next two bytes.  The search goes on `back` bytes before
    the text. -/
theorem putHeader_spec (m : Mem Byte) {msg : Message} {a b : Nat} {rest : List Nat}
    (bytes : msg.bytes = a :: b :: rest) (some_ : msg.used ≠ 0) :
    ∃ base used cont back, putHeader m msg.base msg.base msg.used msg.cont header =
        ((m.set a 4).set b 32, some ⟨base, used, cont⟩) ∧
      (⟨base + back, used, cont⟩ : Message).bytes = rest ∧
      (∀ i < back, base + i = a ∨ base + i = b) ∧
      addresses (base + back) used =
        addresses ((msg.read 1).1.base + 1) ((msg.read 1).1.used - 1) := by
  obtain ⟨base, used, cont⟩ := msg
  obtain ⟨n, rfl⟩ := Nat.exists_eq_succ_of_ne_zero some_
  rw [Nat.succ_eq_add_one, bytes_succ] at bytes
  obtain ⟨rfl, tail⟩ := List.cons.inj bytes
  cases n with
  | succ n =>
      rw [bytes_succ] at tail
      obtain ⟨rfl, left⟩ := List.cons.inj tail
      refine ⟨base, n, cont, 2, by simp [putHeader, header], left, fun i less => ?_, ?_⟩
      · omega
      · have next : ((⟨base, n + 2, cont⟩ : Message).read 1).1 = ⟨base + 1, n + 1, cont⟩ := by
          unfold Message.read
          cases cont with
          | nil => simp [Message.readParts]
          | cons v cont => simp [Message.readParts, Message.settle]
        simp only [Nat.succ_eq_add_one]
        rw [next]
        rfl
  | zero =>
      have next : (Message.settle 0 0 cont).bytes = b :: rest := by
        rw [Message.bytes_settle, ← tail]
        simp [Message.bytes]
      have some_ : (Message.settle 0 0 cont).used ≠ 0 := by
        intro none
        rw [Message.settle_used 0 0 cont none] at next
        cases next
      have after : ((⟨base, 1, cont⟩ : Message).read 1).1 = Message.settle 0 0 cont := by
        unfold Message.read
        cases cont with
        | nil => simp [Message.settle] at some_
        | cons v cont => simp [Message.readParts, Message.settle]
      simp only [Nat.succ_eq_add_one, Nat.zero_add]
      rw [after]
      generalize part : Message.settle 0 0 cont = msg at next some_
      obtain ⟨base', used', cont'⟩ := msg
      obtain ⟨n, rfl⟩ := Nat.exists_eq_succ_of_ne_zero some_
      rw [Nat.succ_eq_add_one, bytes_succ] at next
      obtain ⟨rfl, left⟩ := List.cons.inj next
      refine ⟨base', n, cont', 1, ?_, left, fun i less => .inr (by omega), rfl⟩
      simp [putHeader, header, part]

end Header

section Decode

/-- The decoder is in the stream of texts that starts at a position: in front of it, or
    in its first text. -/
structure Tracks (A : List Nat) (dec : DecodeState) (m : Mem Byte) (start : Nat)
    (texts : List (List Byte)) : Prop where
  low : 2 ≤ start
  bytes : (A.drop start).map m = stream texts
  state : dec.len - dec.msg.getD 0 = 0 ∧ dec.curr = start ∨
    dec.msg = none ∧ dec.pos + 2 = start ∧ dec.curr = dec.pos + dec.len ∧
      ((A.drop dec.pos).take 2).map m = header ∧
      ∃ j, dec.len = 2 + j ∧ ∀ t ts, texts = t :: ts → j ≤ t.length

/-- A call of the decoder. -/
structure Call where
  source : List Iovec
  sourcelen : Nat

/-- The bytes that a call can see. -/
def Call.bytes (c : Call) : List Nat := (sourceParts c.source c.sourcelen).bytes

def Call.decode (c : Call) (dec : DecodeState) (m : Mem Byte) :
    DecodeState × Mem Byte × Except Error Nat :=
  decodeCommand dec m (some c.source) c.sourcelen

/-- A message that a call starts has no zero in the rest of the part that its header ends
    in. -/
def Clear (dec : DecodeState) (m : Mem Byte) (c : Call) : Prop :=
  dec.len - dec.msg.getD 0 = 0 → ∀ a ∈ restOfPart c.source c.sourcelen (dec.curr - 2), m a ≠ 0

/-- The result of the search of a text, from one of its bytes on. -/
theorem findEnd_text {A : List Nat} {m : Mem Byte} {start : Nat} {texts : List (List Byte)}
    (bytes : (A.drop start).map m = stream texts) (free : ∀ t ∈ texts, 0 ∉ t) {msg : Message}
    {n j : Nat} (len : Nat) (there : start + j ≤ n) (inside : n ≤ A.length)
    (rest : msg.bytes = (A.take n).drop (start + j))
    (part : ∀ t ts, texts = t :: ts → j ≤ t.length) :
    (∃ t ts, texts = t :: ts ∧ start + t.length < n ∧
        findEnd m msg.base msg.used len msg.cont = (len + (t.length - j), true)) ∨
      (∀ t ts, texts = t :: ts → n ≤ start + t.length) ∧
        findEnd m msg.base msg.used len msg.cont = (len + (n - (start + j)), false) := by
  have size : msg.bytes.length = n - (start + j) := by
    rw [rest, List.length_drop, List.length_take, Nat.min_eq_left inside]
  have read : msg.bytes.map m = ((stream texts).drop j).take (n - (start + j)) := by
    rw [rest, ← bytes, List.drop_take, List.map_take, List.map_drop, List.map_drop, List.drop_drop]
  rw [findEnd_spec, read, size]
  cases texts with
  | nil =>
      refine .inr ⟨fun _ _ eq => (nomatch eq), ?_⟩
      simp
  | cons t ts =>
      rw [stream_cons, findIdx?_text (free t (by simp)) (part t ts rfl)]
      by_cases found : t.length - j < n - (start + j)
      · have short := part t ts rfl
        rw [if_pos found]
        exact .inl ⟨t, ts, rfl, by omega, rfl⟩
      · have short := part t ts rfl
        rw [if_neg found]
        refine .inr ⟨?_, rfl⟩
        rintro _ _ ⟨⟩
        omega

/-- What a call does to the stream. -/
inductive Outcome (A : List Nat) (c : Call) (dec' : DecodeState) (m' : Mem Byte)
    (ret : Except Error Nat) (start : Nat) : List (List Byte) → Prop where
  /-- the message is there with its end -/
  | message {t : List Byte} {ts : List (List Byte)} (available : start + t.length < c.bytes.length)
      (ok : ret = .ok 1) (isSome : dec'.msg = some dec'.len)
      (message : ((A.drop dec'.pos).take dec'.len).map m' = header ++ t)
      (curr : dec'.curr = start + t.length + 1)
      (tracks : Tracks A dec' m' (start + t.length + 1) ts) : Outcome A c dec' m' ret start (t :: ts)
  /-- the end of the message is not there -/
  | goesOn {texts : List (List Byte)}
      (missing : ∀ t ts, texts = t :: ts → c.bytes.length ≤ start + t.length) (ok : ret = .ok 0)
      (curr : dec'.curr = c.bytes.length) (tracks : Tracks A dec' m' start texts) :
      Outcome A c dec' m' ret start texts

/-- The end of a call that has found the text. -/
theorem finish_outcome {A : List Nat} (dec : DecodeState) (j : Nat) (msg msg' : Message)
    {m : Mem Byte} {start : Nat} {texts : List (List Byte)} (low : 2 ≤ start) (bytes : (A.drop start).map m = stream texts)
    (free : ∀ t ∈ texts, 0 ∉ t) {c : Call} (all : c.sourcelen ≠ 0) (inside : c.bytes.length ≤ A.length)
    (first : c.bytes = A.take c.bytes.length) (there : start + j ≤ c.bytes.length)
    (part : ∀ t ts, texts = t :: ts → j ≤ t.length)
    (rest : msg.bytes = c.bytes.drop (start + j))
    (same : findEnd m msg'.base msg'.used (2 + j) msg'.cont =
      findEnd m msg.base msg.used (2 + j) msg.cont)
    (none : dec.msg = none) (pos : dec.pos + 2 = start)
    (head : ((A.drop dec.pos).take 2).map m = header) :
    ∃ dec' ret, finish dec m msg' dec.pos (2 + j) c.sourcelen = (dec', m, ret) ∧
      Outcome A c dec' m ret start texts := by
  rw [first] at rest
  unfold finish
  rcases findEnd_text bytes free (2 + j) there inside rest part with
    ⟨t, ts, rfl, available, found⟩ | ⟨missing, found⟩
  · have short := part t ts rfl
    have size : 2 + j + (t.length - j) = 2 + t.length := by omega
    rw [same, found]
    simp only [size]
    rw [if_neg (by simp [all, none])]
    refine ⟨_, _, rfl, .message available rfl rfl ?_ (by simp only; omega) ⟨by omega, ?_, .inl ⟨?_, ?_⟩⟩⟩
    · have text : ((A.drop start).take t.length).map m = t := by
        rw [List.map_take, bytes, stream_cons, List.take_left]
      rw [← pos] at text
      rw [List.take_add, List.map_append, head, List.drop_drop, text]
    · rw [← List.drop_drop, List.map_drop, ← List.drop_drop, List.map_drop, bytes, stream_cons]
      simp
    · simp
    · simp only
      omega
  · rw [same, found]
    refine ⟨_, _, rfl, .goesOn missing rfl ?_ ⟨low, bytes, .inr ⟨none, pos, rfl, head, ?_⟩⟩⟩
    · simp only
      omega
    · refine ⟨j + (c.bytes.length - (start + j)), by simp only; omega, fun t ts eq => ?_⟩
      have := missing t ts eq
      omega

theorem sourceParts_settle (source : List Iovec) (sourcelen n : Nat) :
    ((sourceParts source sourcelen).read n).2 = (sourceParts source sourcelen).bytes.take n ∧
      ((sourceParts source sourcelen).read n).1.bytes = (sourceParts source sourcelen).bytes.drop n ∧
      (((sourceParts source sourcelen).read n).1.used = 0 →
        ((sourceParts source sourcelen).read n).1.bytes = []) :=
  Message.read_spec _ _

/-- Two positions of distinct addresses. -/
theorem getElem_ne {A : List Nat} (nodup : A.Nodup) {i : Nat} {a b : Nat} {l : List Nat}
    (at_ : A.drop i = a :: b :: l) : a ≠ b ∧ (∀ x ∈ A.drop (i + 2), x ≠ a ∧ x ≠ b) := by
  have nodup' := nodup.sublist (List.drop_sublist i A)
  rw [at_] at nodup'
  obtain ⟨first, rest⟩ := List.nodup_cons.mp nodup'
  obtain ⟨second, _⟩ := List.nodup_cons.mp rest
  have tail : A.drop (i + 2) = l := by
    rw [← List.drop_drop, at_]
    rfl
  rw [tail]
  refine ⟨?_, fun x mem => ⟨?_, ?_⟩⟩
  · rintro rfl
    exact first (by simp)
  · rintro rfl
    exact first (by simp [mem])
  · rintro rfl
    exact second mem

theorem drop_two {A : List Nat} {n : Nat} (long : n + 2 ≤ A.length) :
    ∃ a b l, A.drop n = a :: b :: l := by
  have size : (A.drop n).length ≥ 2 := by
    rw [List.length_drop]
    omega
  cases eq : A.drop n with
  | nil => rw [eq] at size; simp at size
  | cons a l =>
      cases l with
      | nil => rw [eq] at size; simp at size
      | cons b l => exact ⟨a, b, l, rfl⟩

/-- The header has no zero, so the text behind it may start in the header. -/
theorem shifted_clear {m : Mem Byte} {a b base back used : Nat} (apart : a ≠ b)
    (before : ∀ i < back, base + i = a ∨ base + i = b)
    (text : 0 ∉ ((m.set a 4).set b 32).read (base + back) used) :
    0 ∉ ((m.set a 4).set b 32).read base used := by
  intro mem
  rw [← map_addresses] at mem text
  obtain ⟨x, mem, zero⟩ := List.mem_map.mp mem
  obtain ⟨i, less, rfl⟩ := List.mem_map.mp mem
  rw [List.mem_range] at less
  by_cases header : i < back
  · rcases before i header with same | same
    · rw [same, Mem.set_ne _ _ apart, Mem.set_self] at zero
      cases zero
    · rw [same, Mem.set_self] at zero
      cases zero
  · refine text (List.mem_map.mpr ⟨base + back + (i - back), ?_, ?_⟩)
    · exact List.mem_map.mpr ⟨i - back, List.mem_range.mpr (by omega), rfl⟩
    · rw [show base + back + (i - back) = base + i by omega]
      exact zero

section Decode

variable {A : List Nat} {dec : DecodeState} {m : Mem Byte} {start : Nat} {texts : List (List Byte)}
  (t : Tracks A dec m start texts) (free : ∀ t ∈ texts, 0 ∉ t) {c : Call} (all : c.sourcelen ≠ 0)
  (inside : c.bytes.length ≤ A.length) (first : c.bytes = A.take c.bytes.length)
  (available : dec.curr ≤ c.bytes.length)

include t free all inside first available

/-- The call for a new text puts the header before it. -/
theorem decode_begins (nodup : A.Nodup) (clear : Clear dec m c)
    (fresh : dec.len - dec.msg.getD 0 = 0) :
    ∃ dec' m' ret, c.decode dec m = (dec', m', ret) ∧ Outcome A c dec' m' ret start texts := by
  obtain ⟨low, bytes, state⟩ := t
  have taken (n : Nat) (le : n ≤ c.bytes.length) :
      ¬ ((sourceParts c.source c.sourcelen).read n).2.length < n := by
    rw [(sourceParts_settle _ _ n).1]
    rw [List.length_take]
    have : c.bytes.length = (sourceParts c.source c.sourcelen).bytes.length := rfl
    omega
  have curr : dec.curr = start := by
    rcases state with ⟨_, curr⟩ | ⟨none, _, _, _, j, len, _⟩
    · exact curr
    · rw [none] at fresh
      simp only [Option.getD_none] at fresh
      omega
  obtain ⟨_, left, some_⟩ := sourceParts_settle c.source c.sourcelen (dec.curr - 2)
  have left' : ((sourceParts c.source c.sourcelen).read (dec.curr - 2)).1.bytes =
      c.bytes.drop (dec.curr - 2) := left
  obtain ⟨a, b, l, at_⟩ := drop_two (A := A) (n := dec.curr - 2) (by omega)
  obtain ⟨apart, others⟩ := getElem_ne nodup at_
  rw [show dec.curr - 2 + 2 = start by omega] at others
  have split : c.bytes.drop (dec.curr - 2) = a :: b :: c.bytes.drop start := by
    have two : (c.bytes.drop (dec.curr - 2)).take 2 = [a, b] := by
      rw [first, List.drop_take, List.take_take, Nat.min_eq_left (by omega), at_]
      rfl
    rw [← List.take_append_drop 2 (c.bytes.drop (dec.curr - 2)), two, List.drop_drop,
      show dec.curr - 2 + 2 = start by omega]
    rfl
  rw [split] at left'
  have used : ((sourceParts c.source c.sourcelen).read (dec.curr - 2)).1.used ≠ 0 := by
    intro none
    rw [some_ none] at left'
    cases left'
  obtain ⟨base, used', cont, back, put, rest, before, window⟩ := putHeader_spec m left' used
  have eq : c.decode dec m = finish { dec with pos := dec.curr - 2, len := 2, msg := none }
      ((m.set a 4).set b 32) ⟨base, used', cont⟩ (dec.curr - 2) 2 c.sourcelen := by
    unfold Call.decode decodeCommand
    simp only [all, and_false, if_false, fresh, if_true]
    rw [if_neg (by omega), if_neg (taken _ (by omega)), put]
  have kept {x : Nat} (mem : x ∈ A.drop start) : ((m.set a 4).set b 32) x = m x := by
    obtain ⟨other, other'⟩ := others x mem
    rw [Mem.set_ne _ _ other', Mem.set_ne _ _ other]
  have member {x : Nat} (mem : x ∈ c.bytes.drop start) : x ∈ A.drop start := by
    rw [first, List.drop_take] at mem
    exact List.mem_of_mem_take mem
  have bytes' : (A.drop start).map ((m.set a 4).set b 32) = stream texts := by
    rw [← bytes]
    exact List.map_congr_left fun x mem => kept mem
  have head : ((A.drop (dec.curr - 2)).take 2).map ((m.set a 4).set b 32) = header := by
    rw [at_]
    simp only [List.take_succ_cons, List.take_zero, List.map_cons, List.map_nil]
    rw [Mem.set_ne _ _ apart, Mem.set_self, Mem.set_self]
    rfl
  -- neither the text in this part nor the header before it has a zero
  have text : 0 ∉ ((m.set a 4).set b 32).read (base + back) used' := by
    rw [← map_addresses]
    intro mem
    obtain ⟨x, mem, zero⟩ := List.mem_map.mp mem
    have inText : x ∈ c.bytes.drop start := by
      rw [← rest]
      exact List.mem_append_left _ mem
    rw [kept (member inText)] at zero
    rw [window] at mem
    exact clear fresh x mem zero
  have shifted := shifted_clear apart before text
  rw [eq]
  obtain ⟨dec', ret, done, outcome⟩ := finish_outcome
    { dec with pos := dec.curr - 2, len := 2, msg := none } 0 ⟨base + back, used', cont⟩
    ⟨base, used', cont⟩ low bytes' free all inside first (by omega) (fun _ _ _ => Nat.zero_le _)
    (by rw [rest]; rfl) (findEnd_shift shifted text _ _) rfl
    (by simp only; omega) head
  exact ⟨dec', _, ret, done, outcome⟩

/-- The call for the rest of a text goes on behind what was there before. -/
theorem decode_continues (fresh : dec.len - dec.msg.getD 0 ≠ 0) :
    ∃ dec' m' ret, c.decode dec m = (dec', m', ret) ∧ Outcome A c dec' m' ret start texts := by
  obtain ⟨low, bytes, state⟩ := t
  have taken (n : Nat) (le : n ≤ c.bytes.length) :
      ¬ ((sourceParts c.source c.sourcelen).read n).2.length < n := by
    rw [(sourceParts_settle _ _ n).1]
    rw [List.length_take]
    have : c.bytes.length = (sourceParts c.source c.sourcelen).bytes.length := rfl
    omega
  obtain ⟨none, pos, curr, head, j, len, part⟩ := state.resolve_left fun between =>
    fresh between.1
  rw [none, Option.getD_none, Nat.sub_zero] at fresh
  obtain ⟨_, left, _⟩ := sourceParts_settle c.source c.sourcelen dec.curr
  have eq : c.decode dec m = finish dec m ((sourceParts c.source c.sourcelen).read dec.curr).1
      dec.pos dec.len c.sourcelen := by
    unfold Call.decode decodeCommand
    simp only [none, Option.getD_none, Nat.sub_zero, ne_eq, not_true_eq_false, false_and, if_false]
    rw [if_neg fresh, if_neg (not_not.mpr curr), if_neg (taken _ available)]
  rw [eq, len]
  obtain ⟨dec', ret, done, outcome⟩ := finish_outcome dec j
    ((sourceParts c.source c.sourcelen).read dec.curr).1 _ low bytes free all inside first (by omega)
    part (by rw [left, show dec.curr = start + j by omega]; rfl) rfl none pos head
  exact ⟨dec', m, ret, done, outcome⟩

/-- One call of the decoder. -/
theorem decode_outcome (nodup : A.Nodup) (clear : Clear dec m c) :
    ∃ dec' m' ret, c.decode dec m = (dec', m', ret) ∧ Outcome A c dec' m' ret start texts := by
  by_cases fresh : dec.len - dec.msg.getD 0 = 0
  · exact decode_begins t free all inside first available nodup clear fresh
  · exact decode_continues t free all inside first available fresh

end Decode

/-- Calls that see a growing part of the stream, at least the first `n` bytes. -/
def Prefixes (A : List Nat) (n : Nat) : List Call → Prop
  | [] => True
  | c :: cs => c.sourcelen ≠ 0 ∧ n ≤ c.bytes.length ∧ c.bytes <+: A ∧ Prefixes A c.bytes.length cs

/-- No call of a run starts a message where it would go wrong. -/
def ClearRun (dec : DecodeState) (m : Mem Byte) : List Call → Prop
  | [] => True
  | c :: cs => Clear dec m c ∧ ClearRun (c.decode dec m).1 (c.decode dec m).2.1 cs

/-- The calls of a run deliver the texts of the stream that starts at a position: the next
    one when its terminator is there, and none before that. -/
def Delivers (A : List Nat) (dec : DecodeState) (m : Mem Byte) (start : Nat)
    (texts : List (List Byte)) : List Call → Prop
  | [] => True
  | c :: cs =>
      let (dec', m', ret) := c.decode dec m
      (∃ t ts, texts = t :: ts ∧ start + t.length < c.bytes.length ∧ ret = .ok 1 ∧
          dec'.msg = some dec'.len ∧ ((A.drop dec'.pos).take dec'.len).map m' = header ++ t ∧
          dec'.curr = start + t.length + 1 ∧ Delivers A dec' m' (start + t.length + 1) ts cs) ∨
        (∀ t ts, texts = t :: ts → c.bytes.length ≤ start + t.length) ∧ ret = .ok 0 ∧
          Delivers A dec' m' start texts cs

theorem delivers {A : List Nat} (nodup : A.Nodup) {dec : DecodeState} {m : Mem Byte} {start : Nat}
    {texts : List (List Byte)} (t : Tracks A dec m start texts) (free : ∀ t ∈ texts, 0 ∉ t)
    {n : Nat} (curr : dec.curr ≤ n) (cs : List Call) (prefixes : Prefixes A n cs)
    (clear : ClearRun dec m cs) : Delivers A dec m start texts cs := by
  induction cs generalizing dec m start texts n with
  | nil => trivial
  | cons c cs ih =>
      obtain ⟨all, more, part, prefixes⟩ := prefixes
      obtain ⟨clear, rest⟩ := clear
      obtain ⟨dec', m', ret, eq, outcome⟩ := decode_outcome t free all part.length_le
        (List.prefix_iff_eq_take.mp part) (Nat.le_trans curr more) nodup clear
      rw [eq] at rest
      simp only [Delivers, eq]
      cases outcome with
      | message available ok isSome message curr tracks =>
          exact .inl ⟨_, _, rfl, available, ok, isSome, message, curr,
            ih tracks (fun t mem => free t (List.mem_cons_of_mem _ mem)) (by omega) prefixes rest⟩
      | goesOn missing ok curr tracks =>
          exact .inr ⟨missing, ok, ih tracks free (Nat.le_of_eq curr) prefixes rest⟩

/-- However texts are encoded, and in whatever prefixes their stream arrives, the decoder
    delivers them as commands. -/
theorem commands_delivered {texts : List (List Byte)} (free : ∀ t ∈ texts, t ≠ [] ∧ 0 ∉ t)
    (base : Nat) (m₀ : Mem Byte) (encode : List EncodeCall)
    (encoded : (encodeRun base ⟨0, 0⟩ m₀ encode).2.2 = stream texts) {A : List Nat}
    (nodup : A.Nodup) {gap : Nat} (low : 2 ≤ gap) (m : Mem Byte)
    (placed : (A.drop gap).map m = (encodeRun base ⟨0, 0⟩ m₀ encode).2.1.read base
      (encodeRun base ⟨0, 0⟩ m₀ encode).1.done)
    (cs : List Call) (prefixes : Prefixes A gap cs)
    (clear : ClearRun { DecodeState.init with curr := gap } m cs) :
    Delivers A { DecodeState.init with curr := gap } m gap texts cs := by
  have bytes : (A.drop gap).map m = stream texts := by
    rw [placed, encode_run rfl, encoded]
    rfl
  exact delivers nodup ⟨low, bytes, .inl ⟨rfl, rfl⟩⟩ (fun t mem => (free t mem).2) (Nat.le_refl _) cs
    prefixes clear

/-- The text `a` behind two free bytes. -/
def sample (i : Nat) : Byte := if i = 12 then 97 else 0

/-- The free bytes are a part of their own. -/
theorem command_in_next_part :
    Delivers [10, 11, 12, 13] { DecodeState.init with curr := 2 } sample 2 [[97]]
      [⟨[⟨10, 2⟩, ⟨12, 1⟩], 2⟩, ⟨[⟨10, 2⟩, ⟨12, 2⟩], 2⟩] :=
  commands_delivered (by decide) 0 (fun _ => 0) [⟨8, some [97]⟩, ⟨8, none⟩] (by decide) (by decide)
    (by decide) sample (by decide) _ (by
      refine ⟨by decide, by decide, ⟨[13], by decide⟩, by decide, by decide, ⟨[], by decide⟩, trivial⟩)
    (by
      refine ⟨fun _ a mem => ?_, fun fresh => ?_, trivial⟩
      · change a ∈ restOfPart [⟨10, 2⟩, ⟨12, 1⟩] 2 0 at mem
        rw [show restOfPart [⟨10, 2⟩, ⟨12, 1⟩] 2 0 = [] by decide] at mem
        cases mem
      · exact absurd fresh (by decide))

/-- A text in one part with its header is not found. -/
theorem command_in_same_part : ¬ ∀ (texts : List (List Byte)), (∀ t ∈ texts, t ≠ [] ∧ 0 ∉ t) →
    ∀ (base : Nat) (m₀ : Mem Byte) (encode : List EncodeCall),
      (encodeRun base ⟨0, 0⟩ m₀ encode).2.2 = stream texts →
    ∀ (A : List Nat), A.Nodup → ∀ (gap : Nat), 2 ≤ gap → ∀ (m : Mem Byte),
      (A.drop gap).map m = (encodeRun base ⟨0, 0⟩ m₀ encode).2.1.read base
        (encodeRun base ⟨0, 0⟩ m₀ encode).1.done →
    ∀ (cs : List Call), Prefixes A gap cs →
      Delivers A { DecodeState.init with curr := gap } m gap texts cs := by
  intro all
  have run := all [[97]] (by decide) 0 (fun _ => 0) [⟨8, some [97]⟩, ⟨8, none⟩] (by decide)
    [10, 11, 12, 13] (by decide) 2 (by decide) sample (by decide) [⟨[⟨10, 4⟩], 1⟩]
    ⟨by decide, by decide, ⟨[], by decide⟩, trivial⟩
  rcases run with ⟨_, _, _, _, ok, _⟩ | ⟨missing, _⟩
  · exact absurd ok (by decide)
  · exact absurd (missing [97] [] rfl) (by decide)

end Decode

end Mpt.Text
