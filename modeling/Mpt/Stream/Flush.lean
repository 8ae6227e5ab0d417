import Mpt.Queue.Transparent

/-! # Flushing the write queue

`mpt_stream_flush` hands the finished bytes of the write queue to the file and drops what
was accepted.  The answer of `writev` is kept in an unsigned variable.
-/

namespace Mpt

open Cobs

/-- Where the finished bytes go: the flags of the stream, and if `_mpt_stream_fwrite` gives a
    file. -/
structure Sink where
  writeMap : Bool
  readBuf : Bool
  file : Bool

/-- Finished bytes are written to a file. -/
def Sink.Backed (sink : Sink) : Prop := sink.file = true ∧ (sink.writeMap = false ∨ sink.readBuf = true)

theorem Sink.Backed.unmapped {sink : Sink} (backed : sink.Backed) :
    ¬ (sink.writeMap = true ∧ sink.readBuf = false) := by
  rintro ⟨mapped, unbuffered⟩
  rcases backed.2 with other | other
  · rw [mapped] at other
    cases other
  · rw [unbuffered] at other
    cases other

def sizeModulus : Nat := 2 ^ 64

namespace EncodeQueue

/-- What is passed to `writev`: the finished bytes, in one part or two. -/
def parts (qu : EncodeQueue) : List (List Byte) :=
  let (addr, low) := qu.data.data
  if low < qu.state.done then
    [qu.data.mem.read addr low, qu.data.mem.read qu.data.base (qu.state.done - low)]
  else
    [qu.data.mem.read addr qu.state.done]

/-- Finished bytes are removed; the new size of them is unsigned. -/
def remove (qu : EncodeQueue) (len : Nat) : EncodeQueue :=
  let data := match qu.data.crop 0 len with
    | .ok (data, _) => data
    | .error _ => qu.data
  ⟨data, { qu.state with done := (qu.state.done + sizeModulus - len) % sizeModulus }⟩

def remaining (qu : EncodeQueue) : Int := if qu.data.len = 0 then 0 else 1

/-- `mpt_stream_flush` when `writev` accepts at most `reply` bytes, or fails, with the bytes
    that the file accepts. -/
def flush (sink : Sink) (reply : Option Nat) (qu : EncodeQueue) : EncodeQueue × Int × List Byte :=
  let len := qu.state.done
  if len = 0 then
    (qu, qu.remaining, [])
  -- update memory mapped file
  else if sink.writeMap = true ∧ sink.readBuf = false then
    (qu.remove len, (qu.remove len).remaining, [])
  -- try to save ready data to backing file
  else if sink.file = true then
    if qu.data.base = 0 then
      (qu, -2, [])
    else
      match reply with
      -- the failure is a large size
      | none => (qu.remove (sizeModulus - 1), (qu.remove (sizeModulus - 1)).remaining, [])
      | some reply =>
          let written := qu.parts.flatten.take reply
          if written.length = 0 then
            (qu, 1, [])
          else
            (qu.remove written.length, (qu.remove written.length).remaining, written)
  else
    (qu.remove len, (qu.remove len).remaining, [])

/-- The content is finished bytes and others behind them. -/
structure Laid (qu : EncodeQueue) (fin rest : List Byte) : Prop where
  valid : qu.data.Valid
  base : qu.data.base ≠ 0
  done : qu.state.done = fin.length
  scratch : qu.state.scratch = rest.length
  content : qu.data.content = fin ++ rest

variable {qu : EncodeQueue} {fin rest src : List Byte}

namespace Laid

theorem len_eq (laid : qu.Laid fin rest) : qu.data.len = fin.length + rest.length := by
  rw [← Queue.length_content, laid.content, List.length_append]

theorem within (laid : qu.Laid fin rest) : fin.length + rest.length ≤ qu.data.max := by
  rw [← laid.len_eq]
  exact laid.valid.len_le

/-- The finished bytes are what is passed to `writev`. -/
theorem parts_eq (laid : qu.Laid fin rest) : qu.parts.flatten = fin := by
  have front : qu.data.content.take qu.state.done = fin := by
    rw [laid.content, laid.done, List.take_left]
  have room : qu.state.done ≤ qu.data.len := by
    rw [laid.done, laid.len_eq]
    exact Nat.le_add_right _ _
  rw [← front, Queue.content_split laid.valid, List.take_append, Mem.length_read, Mem.take_read,
    Mem.take_read]
  unfold parts
  rw [Queue.data_eq]
  simp only
  generalize min (qu.data.max - qu.data.off) qu.data.len = low
  by_cases wraps : low < qu.state.done
  · have upper : min (qu.state.done - low) (qu.data.len - low) = qu.state.done - low :=
      Nat.min_eq_left (Nat.sub_le_sub_right room low)
    rw [if_pos wraps, Nat.min_eq_right (Nat.le_of_lt wraps), upper]
    simp
  · have none_ : qu.state.done - low = 0 := by omega
    rw [if_neg wraps, Nat.min_eq_left (Nat.le_of_not_lt wraps), none_, Nat.zero_min]
    simp

/-- The first finished bytes are removed. -/
theorem remove (laid : qu.Laid fin rest) (small : qu.data.max < sizeModulus) {n : Nat}
    (le : n ≤ fin.length) :
    (qu.remove n).Laid (fin.drop n) rest ∧ (qu.remove n).data.max = qu.data.max := by
  have within := laid.within
  have done : (qu.state.done + sizeModulus - n) % sizeModulus = (fin.drop n).length := by
    rw [laid.done, List.length_drop]
    unfold sizeModulus at *
    omega
  rcases Queue.crop_front qu.data n with ⟨le', ret, crop⟩ | ⟨more, _⟩
  · unfold EncodeQueue.remove
    rw [crop, done]
    refine ⟨⟨Queue.dropFront_valid laid.valid le', laid.base, rfl, laid.scratch, ?_⟩, rfl⟩
    show (qu.data.dropFront n).content = _
    rw [Queue.content_dropFront laid.valid, laid.content, List.drop_append_of_le_length le]
  · rw [laid.len_eq] at more
    omega

/-- A flush hands over the first finished bytes, and removes those. -/
theorem flush (laid : qu.Laid fin rest) (small : qu.data.max < sizeModulus) {sink : Sink}
    (backed : sink.Backed) {reply : Option Nat} (success : reply ≠ none ∨ qu.state.done = 0) :
    ∃ n ≤ fin.length, ((qu.flush sink reply).1).Laid (fin.drop n) rest ∧
      (qu.flush sink reply).1.data.max = qu.data.max ∧ (qu.flush sink reply).2.2 = fin.take n := by
  unfold EncodeQueue.flush
  by_cases nothing : qu.state.done = 0
  · simp only [if_pos nothing]
    exact ⟨0, Nat.zero_le _, laid, trivial, rfl⟩
  · have unmapped := backed.unmapped
    simp only [if_neg nothing, if_neg unmapped, if_pos backed.1, if_neg laid.base]
    cases reply with
    | none => exact absurd rfl (success.resolve_right nothing)
    | some reply =>
        simp only [laid.parts_eq]
        by_cases empty : (fin.take reply).length = 0
        · simp only [if_pos empty]
          exact ⟨0, Nat.zero_le _, laid, trivial, rfl⟩
        · simp only [if_neg empty]
          have le : (fin.take reply).length ≤ fin.length := by
            rw [List.length_take]
            exact Nat.min_le_right _ _
          obtain ⟨laid', max⟩ := laid.remove small le
          refine ⟨_, le, laid', max, ?_⟩
          rw [List.take_eq_take_iff]
          simp

/-- A failed `writev` leaves the content as it is, but raises the size of finished bytes. -/
theorem flush_failed (laid : qu.Laid fin rest) (small : qu.data.max < sizeModulus - 1) {sink : Sink}
    (backed : sink.Backed) (some_ : fin ≠ []) :
    (qu.flush sink none).1.data = qu.data ∧ (qu.flush sink none).1.state.done = qu.state.done + 1 := by
  have within := laid.within
  have finished : qu.state.done ≠ 0 := by
    rw [laid.done]
    exact fun zero => some_ (List.eq_nil_of_length_eq_zero zero)
  have unmapped := backed.unmapped
  have raised : (qu.state.done + sizeModulus - (sizeModulus - 1)) % sizeModulus =
      qu.state.done + 1 := by
    rw [laid.done]
    unfold sizeModulus at *
    omega
  unfold EncodeQueue.flush
  simp only [if_neg finished, if_neg unmapped, if_pos backed.1, if_neg laid.base]
  unfold EncodeQueue.remove
  rcases Queue.crop_front qu.data (sizeModulus - 1) with ⟨le, _⟩ | ⟨_, crop⟩
  · rw [laid.len_eq] at le
    omega
  · rw [crop]
    exact ⟨rfl, raised⟩

end Laid

/-- The queue of an encoder, or of none. -/
def Kept (c : Option Codec) (qu : EncodeQueue) (fin rest : List Byte) : Prop :=
  match c with
  | none => qu.Laid fin rest
  | some c => ∃ o, Coded c.variant qu fin o ∧ rest = progress o

theorem Kept.laid {c : Option Codec} (kept : Kept c qu fin rest) : qu.Laid fin rest := by
  cases c with
  | none => exact kept
  | some c =>
      obtain ⟨o, coded, rfl⟩ := kept
      exact ⟨coded.valid, coded.base, coded.done, coded.scratch, coded.content⟩

/-- What the queue has to be after finished bytes left it. -/
theorem Kept.less {c : Option Codec} (kept : Kept c qu fin rest) {qu' : EncodeQueue}
    {fin' : List Byte} (laid : qu'.Laid fin' rest) : Kept c qu' fin' rest := by
  cases c with
  | none => exact laid
  | some c =>
      obtain ⟨o, coded, rfl⟩ := kept
      exact ⟨o, ⟨laid.valid, laid.base, laid.done, laid.scratch, laid.content, coded.short⟩, rfl⟩

/-- What a push that was answered does to the bytes that are finished, and to the others. -/
inductive Adds (c : Option Codec) : (fin rest src : List Byte) → (ret : Except Error Nat) →
    (fin' rest' : List Byte) → Prop where
  | coded {codec : Codec} {fin src add : List Byte} {o o' : Option (List Byte)}
      {ret : Except Error Nat} {room : Nat} (encoder : c = some codec)
      (next : Next codec room o src add o' ret) :
      Adds c fin (progress o) src ret (fin ++ add) (progress o')
  | data {fin rest src : List Byte} {n : Nat} (raw : c = none) (some : src ≠ [])
      (taken : 0 < n ∧ n ≤ src.length) : Adds c fin rest src (.ok n) fin (rest ++ src.take n)
  | full {fin rest src : List Byte} (raw : c = none) (some : src ≠ []) :
      Adds c fin rest src (.error .missingBuffer) fin rest
  | finish {fin rest : List Byte} {n : Nat} (raw : c = none) :
      Adds c fin rest [] (.ok n) (fin ++ rest) []

/-- The condition for a push: without an encoder there is none. -/
def Ready (c : Option Codec) (qu : EncodeQueue) (src : List Byte) : Prop :=
  match c with
  | none => True
  | some c => Clean c qu src

/-- A push without an encoder. -/
theorem Laid.pushRaw (laid : qu.Laid fin rest) (src : List Byte) :
    ∃ qu' ret add rest', qu.pushRaw (.bytes src) = (qu', ret) ∧ qu'.Laid (fin ++ add) rest' ∧
      qu'.data.max = qu.data.max ∧
      ∀ before, Adds none (before ++ fin) rest src ret (before ++ fin ++ add) rest' := by
  unfold EncodeQueue.pushRaw
  by_cases empty : src.length = 0
  · obtain rfl := List.eq_nil_of_length_eq_zero empty
    refine ⟨_, _, rest, [], if_pos rfl, ⟨laid.valid, laid.base, ?_, rfl, ?_⟩, rfl, fun before => ?_⟩
    · show qu.data.len = _
      rw [laid.len_eq, List.length_append]
    · rw [List.append_nil]
      exact laid.content
    · exact .finish rfl
  · have some_ : src ≠ [] := fun nil => empty (by rw [nil]; rfl)
    have fits : ¬ qu.state.done + qu.state.scratch ≠ qu.data.len := by
      rw [laid.done, laid.scratch, laid.len_eq]
      exact fun ne => ne rfl
    have size : ¬ (Data.bytes src).len = 0 := empty
    simp only [if_neg size, if_neg fits]
    by_cases full : qu.data.max - qu.data.len = 0
    · rw [if_pos full]
      refine ⟨qu, _, [], rest, rfl, by rwa [List.append_nil], rfl, fun before => ?_⟩
      rw [List.append_nil]
      exact .full rfl some_
    · rw [if_neg full]
      have count : (src.take (min (qu.data.max - qu.data.len) src.length)).length =
          min (qu.data.max - qu.data.len) src.length := by
        rw [List.length_take]
        omega
      have pushed := Queue.push_spec laid.valid
        (.bytes (src.take (min (qu.data.max - qu.data.len) src.length)))
      simp only [Data.len, count] at pushed
      rcases pushed (by omega) with ⟨room, m, ret, run, content⟩ | ⟨large, _⟩
      · simp only [run]
        refine ⟨_, _, [], rest ++ src.take (min (qu.data.max - qu.data.len) src.length), rfl,
          ⟨⟨laid.valid.off_le, room⟩, laid.base, ?_, ?_, ?_⟩, rfl, fun before => ?_⟩
        · rw [List.append_nil]
          exact laid.done
        · rw [List.length_append, count, ← laid.scratch]
        · rw [content, laid.content, List.append_nil, List.append_assoc]
          rfl
        · rw [List.append_nil]
          exact .data rfl some_ (by omega)
      · omega

/-- One push. -/
theorem Kept.push {c : Option Codec} (kept : Kept c qu fin rest) (ready : Ready c qu src) :
    ∃ qu' ret add rest', qu.push (c.map Codec.encoder) (.bytes src) = (qu', some ret) ∧
      Kept c qu' (fin ++ add) rest' ∧ qu'.data.max = qu.data.max ∧
      ∀ before, Adds c (before ++ fin) rest src ret (before ++ fin ++ add) rest' := by
  cases c with
  | none =>
      obtain ⟨qu', ret, add, rest', run, laid, max, adds⟩ := kept.laid.pushRaw src
      refine ⟨qu', ret, add, rest', ?_, laid, max, adds⟩
      simp only [EncodeQueue.push, Option.map_none, run]
  | some c =>
      obtain ⟨o, coded, rfl⟩ := kept
      obtain ⟨qu', add, o', ret, run, pushes⟩ := push_clean coded ready
      exact ⟨qu', ret, add, _, run, ⟨o', pushes.coded, rfl⟩, pushes.max,
        fun before => .coded rfl pushes.next⟩

end EncodeQueue

/-! ## Pushes and flushes in any order -/

/-- The write queue, what the file accepted, and how pushes were answered. -/
structure Flow where
  qu : EncodeQueue
  file : List Byte
  log : List (List Byte × Except Error Nat)

inductive Flow.Op where
  | push (src : List Byte)
  | flush (reply : Option Nat)

namespace Flow

open EncodeQueue

/-- One call; nothing is answered where the code aborts. -/
def call (c : Option Codec) (sink : Sink) (s : Flow) : Op → Flow
  | .push src =>
      match s.qu.push (c.map Codec.encoder) (.bytes src) with
      | (qu, none) => { s with qu := qu }
      | (qu, some ret) => { s with qu := qu, log := s.log ++ [(src, ret)] }
  | .flush reply =>
      let (qu, _, accepted) := s.qu.flush sink reply
      { s with qu := qu, file := s.file ++ accepted }

def machine (c : Option Codec) (sink : Sink) : Machine Flow Op Unit :=
  ⟨fun s op => (s.call c sink op, ())⟩

/-- The finished bytes and the others that pushes make of those at the start. -/
inductive Encodes (c : Option Codec) (fin₀ rest₀ : List Byte) :
    List (List Byte × Except Error Nat) → (fin rest : List Byte) → Prop where
  | start : Encodes c fin₀ rest₀ [] fin₀ rest₀
  | push {log : List (List Byte × Except Error Nat)} {fin rest src fin' rest' : List Byte}
      {ret : Except Error Nat} (before : Encodes c fin₀ rest₀ log fin rest)
      (adds : Adds c fin rest src ret fin' rest') :
      Encodes c fin₀ rest₀ (log ++ [(src, ret)]) fin' rest'

/-- The condition for a call: no `writev` fails that has finished bytes to write. -/
def Fine (c : Option Codec) (s : Flow) : Op → Prop
  | .push src => Ready c s.qu src
  | .flush reply => reply ≠ none ∨ s.qu.state.done = 0

/-- Nothing is lost or repeated, and the counters are right. -/
structure Right (c : Option Codec) (fin₀ rest₀ : List Byte) (s : Flow) : Prop where
  bytes : ∃ fin rest, Encodes c fin₀ rest₀ s.log fin rest ∧ s.file ++ s.qu.finished = fin ∧
    s.file ++ s.qu.data.content = fin ++ rest
  done : s.qu.state.done = s.qu.finished.length
  len : s.qu.state.done + s.qu.state.scratch = s.qu.data.len

/-- What is left in the queue is what was encoded without what the file accepted. -/
def Left (c : Option Codec) (max : Nat) (fin₀ rest₀ : List Byte) (s : Flow) : Prop :=
  ∃ fin rest, Kept c s.qu fin rest ∧ s.qu.data.max = max ∧
    Encodes c fin₀ rest₀ s.log (s.file ++ fin) rest

variable {c : Option Codec} {max : Nat} {fin₀ rest₀ : List Byte} {s : Flow} {sink : Sink}

theorem Left.right (h : Left c max fin₀ rest₀ s) : Right c fin₀ rest₀ s := by
  obtain ⟨fin, rest, kept, _, encodes⟩ := h
  have laid := kept.laid
  have finished : s.qu.finished = fin := by
    rw [EncodeQueue.finished, laid.content, laid.done, List.take_left]
  refine ⟨⟨_, rest, encodes, by rw [finished], ?_⟩, ?_, ?_⟩
  · rw [laid.content, List.append_assoc]
  · rw [finished, laid.done]
  · rw [laid.done, laid.scratch, laid.len_eq]

theorem Left.call (h : Left c max fin₀ rest₀ s) (small : max < sizeModulus) (backed : sink.Backed)
    (op : Op) (fine : Fine c s op) : Left c max fin₀ rest₀ (s.call c sink op) := by
  obtain ⟨fin, rest, kept, room, encodes⟩ := h
  cases op with
  | push src =>
      obtain ⟨qu', ret, add, rest', run, kept', max', adds⟩ := kept.push fine
      simp only [Flow.call, run]
      refine ⟨fin ++ add, rest', kept', max'.trans room, encodes.push ?_⟩
      rw [← List.append_assoc]
      exact adds s.file
  | flush reply =>
      obtain ⟨n, le, laid, max', accepted⟩ := kept.laid.flush (room.symm ▸ small) backed fine
      refine ⟨fin.drop n, rest, kept.less laid, max'.trans room, ?_⟩
      show Encodes c fin₀ rest₀ s.log (s.file ++ (s.qu.flush sink reply).2.2 ++ fin.drop n) rest
      rw [accepted, List.append_assoc, List.take_append_drop]
      exact encodes

/-- In every run where no `writev` fails, what the file accepted and the content of the queue
    are all that was encoded, and the counters are right. -/
theorem flush_of_run (c : Option Codec) (sink : Sink) (qu : EncodeQueue) (fin₀ rest₀ : List Byte)
    (kept : Kept c qu fin₀ rest₀) (small : qu.data.max < sizeModulus) (backed : sink.Backed)
    (ops : List Op) (fine : (machine c sink).Meets (Fine c) ⟨qu, [], []⟩ ops) :
    ∀ before, before <+: ops → Right c fin₀ rest₀ ((machine c sink).after ⟨qu, [], []⟩ before) := by
  rintro before ⟨rest, rfl⟩
  rw [Machine.meets_append] at fine
  have start : Left c qu.data.max fin₀ rest₀ ⟨qu, [], []⟩ := ⟨fin₀, rest₀, kept, rfl, .start⟩
  have keep : ∀ s op, Left c qu.data.max fin₀ rest₀ s → Fine c s op →
      Left c qu.data.max fin₀ rest₀ ((machine c sink).step s op).1 :=
    fun s op h fine => h.call small backed op fine
  exact (Machine.invariant keep start fine.1).right

/-- An empty queue of four bytes that starts near the end of its storage. -/
def nearEnd : EncodeQueue := .empty (fun _ => 0) 1 4 3

theorem nearEnd_kept : Kept none nearEnd [] [] :=
  ⟨⟨by decide, by decide⟩, by decide, rfl, rfl, rfl⟩

theorem nearEnd_run : Right none [] [] ((machine none ⟨false, false, true⟩).after ⟨nearEnd, [], []⟩
    [.push [1, 2, 3], .push [], .push [4], .flush (some 2), .flush (some 0), .push [5, 6]]) := by
  have fine : (machine none ⟨false, false, true⟩).Meets (Fine none) ⟨nearEnd, [], []⟩
      [.push [1, 2, 3], .push [], .push [4], .flush (some 2), .flush (some 0), .push [5, 6]] :=
    ⟨trivial, trivial, trivial, .inl (by decide), .inl (by decide), trivial, trivial⟩
  exact flush_of_run none ⟨false, false, true⟩ nearEnd [] [] nearEnd_kept (by decide) ⟨rfl, .inl rfl⟩ _
    fine _ List.prefix_rfl

/-- When `writev` fails, the finished byte that stays in the queue is counted twice. -/
theorem flush_wrong : ¬ ∀ (c : Option Codec) (sink : Sink) (qu : EncodeQueue) (fin₀ rest₀ : List Byte),
    Kept c qu fin₀ rest₀ → qu.data.max < sizeModulus → sink.Backed → ∀ ops : List Op,
      Right c fin₀ rest₀ ((machine c sink).after ⟨qu, [], []⟩ ops) := by
  intro all
  have right := all none ⟨false, false, true⟩ nearEnd [] [] nearEnd_kept (by decide) ⟨rfl, .inl rfl⟩
    [.push [1], .push [], .flush none]
  exact absurd right.len (by decide)

end Flow

end Mpt
