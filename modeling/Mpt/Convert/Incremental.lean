import Mpt.Convert.Delivery
import Mpt.Run

/-! # Decoding a stream that becomes available in pieces

A session calls a decoder on a growing front of one stream.  The messages
delivered are those of the stream, as if all of it had been there from the start,
unless the alignment of a new message uses up the space of a block that is
already open.
-/

namespace Mpt.Cobs.Incremental

inductive Op where
  | grow (n : Nat)
  | call
  deriving Repr, DecidableEq

/-- The decoder with its storage, of which `avail` bytes can be seen, and the
    messages delivered so far. -/
structure Session where
  dec : DecodeState
  mem : Mem Byte
  avail : Nat
  delivered : List (List Byte)

def Session.start (m : Mem Byte) : Session := ⟨.init, m, 0, []⟩

/-- The source of a call. -/
def source (base : Nat) (s : Session) : List Iovec := [⟨base, s.avail⟩]

/-- The bytes of the message that a state reports. -/
def reported (base : Nat) (dec : DecodeState) (m : Mem Byte) : List Byte :=
  m.read (base + dec.pos) (dec.msg.getD 0)

def step (c : Codec) (base total : Nat) (s : Session) :
    Op → Session × Option (Except Error Nat)
  | .grow n => ({ s with avail := min (s.avail + n) total }, none)
  | .call =>
      let (dec, mem, ret) := c.decoder s.dec s.mem (some (source base s)) 1
      let delivered := match ret with
        | .ok 1 => s.delivered ++ [reported base dec mem]
        | _ => s.delivered
      (⟨dec, mem, s.avail, delivered⟩, some ret)

/-- The session on a stream of `total` bytes at `base`. -/
def machine (c : Codec) (base total : Nat) : Machine Session Op (Option (Except Error Nat)) where
  step := step c base total

/-- The calls that get on: when a block is open and no byte of its message is
    decoded, the alignment leaves some space, or the next byte is not a data
    byte. -/
def Clean (base : Nat) (s : Session) : Op → Prop
  | .grow _ => True
  | .call => s.dec.ctx ≠ 0 → s.dec.len = 0 → gapAt s.dec (source base s) 1 = 0 →
      s.dec.curr = s.avail ∨ s.mem (base + s.dec.curr) = 0

instance (base : Nat) (s : Session) : Decidable (Clean base s .call) :=
  inferInstanceAs (Decidable (_ → _ → _ → _))

/-- The two decoders of regular COBS. -/
def Regular (c : Codec) : Prop := c = .cobs ∨ c = .cobsR

theorem Regular.variant {c : Codec} (h : Regular c) : c.variant = .regular := by
  rcases h with rfl | rfl <;> rfl

/-- The first `n` messages are delivered and the decoder tracks the rest. -/
structure Sound (c : Codec) (base : Nat) (fs : List Frame) (n : Nat) (s : Session) : Prop where
  count : n ≤ fs.length
  delivered : s.delivered = (fs.take n).map Frame.message
  avail : s.avail ≤ (stream c.variant fs).length
  tracks : Tracks c s.dec s.mem (addresses base s.avail)
    (s.mem.read (base + s.avail) ((stream c.variant fs).length - s.avail)) (fs.drop n)
  space : s.dec.ctx ≠ 0 → s.dec.len ≠ 0 → s.dec.pos + s.dec.len < s.dec.curr

variable {c : Codec} {base n : Nat} {fs : List Frame} {s : Session}

theorem parts_source (base : Nat) (s : Session) :
    (sourceParts (source base s) 1).bytes = addresses base s.avail := by
  simp [sourceParts, source, Message.bytes]

theorem unread_eq (dec : DecodeState) (m : Mem Byte) {base avail : Nat} (le : dec.curr ≤ avail) :
    unread dec m (addresses base avail) = m.read (base + dec.curr) (avail - dec.curr) := by
  rw [unread, drop_addresses _ _ _ le, map_addresses]

theorem sound_start (m : Mem Byte) (base : Nat)
    (holds : m.read base (stream c.variant fs).length = stream c.variant fs) :
    Sound c base fs 0 (.start m) where
  count := Nat.zero_le _
  delivered := rfl
  avail := Nat.zero_le _
  tracks := by
    refine ⟨⟨Nat.le_refl _, Nat.zero_le _, .inl rfl⟩, fun _ => rfl, ?_⟩
    simp only [Session.start, Nat.sub_zero, Nat.add_zero, holds, List.drop_zero]
    exact .between fs
  space := fun h => absurd rfl h

/-- More of the stream can be seen. -/
theorem sound_grow (h : Sound c base fs n s) (k : Nat) :
    Sound c base fs n (step c base (stream c.variant fs).length s (.grow k)).1 := by
  have avail := h.avail
  obtain ⟨j, eq⟩ : ∃ j, min (s.avail + k) (stream c.variant fs).length = s.avail + j :=
    ⟨min (s.avail + k) (stream c.variant fs).length - s.avail, by omega⟩
  refine ⟨h.count, h.delivered, Nat.min_le_right _ _, ?_, h.space⟩
  simp only [step, eq]
  rw [addresses_add]
  refine Tracks.grow ?_
  rw [map_addresses, ← Nat.add_assoc base, ← Mem.read_append]
  have rest : j + ((stream c.variant fs).length - (s.avail + j)) =
      (stream c.variant fs).length - s.avail := by omega
  rw [rest]
  exact h.tracks

/-- A clean call has the space it needs. -/
theorem enough_space (regular : Regular c) (h : Sound c base fs n s)
    (clean : Clean base s .call) :
    needAt c.variant s.dec.ctx (unread s.dec s.mem (addresses base s.avail)) ≤
      gapAt s.dec (source base s) 1 := by
  have inside := h.tracks.ready.inside
  rw [length_addresses] at inside
  rw [regular.variant]
  rcases h.tracks.pending.ctx_cases with closed | ⟨code, pos, codeNe, low, high, ctx⟩
  · rw [closed]
    cases unread s.dec s.mem (addresses base s.avail) with
    | nil => exact Nat.zero_le _
    | cons b rest =>
        have := need_regular b.toNat (0 % 0x10000 / 0x100) rest b.toNat_lt
        simp only [needAt, Nat.zero_mod, if_true] at this ⊢
        omega
  · obtain ⟨codeEq, posEq⟩ := saved_state low high
    have notClosed : s.dec.ctx ≠ 0 := by
      rw [ctx]
      unfold cobsState
      omega
    rw [ctx]
    unfold needAt
    rw [codeEq, posEq, if_neg codeNe]
    have most := need_regular code pos (unread s.dec s.mem (addresses base s.avail)) low
    by_cases gap : gapAt s.dec (source base s) 1 = 0
    · by_cases empty : s.dec.len = 0
      · rcases clean notClosed empty gap with all | delimiter
        · rw [unread_eq _ _ inside, all, Nat.sub_self]
          exact Nat.zero_le _
        · rw [unread_eq _ _ inside]
          cases left : s.avail - s.dec.curr with
          | zero => exact Nat.zero_le _
          | succ k =>
              rw [Mem.read_succ, delimiter, need_delimiter code pos _ low]
              exact Nat.zero_le _
      · have space := h.space notClosed empty
        have none : s.dec.msg = none := by
          by_contra some
          exact notClosed (h.tracks.closed some)
        simp only [gapAt, shift, none, Option.getD_none, Nat.sub_zero, empty, if_false] at gap
        omega
    · omega

/-- A message that goes on keeps some free space behind its first byte. -/
theorem keeps_space (regular : Regular c) (h : Sound c base fs n s) (clean : Clean base s .call)
    {R : Scan}
    (scanned : scanAt c.variant s.dec.ctx (gapAt s.dec (source base s) 1)
      (unread s.dec s.mem (addresses base s.avail)) = some R)
    (more : R.stop = .more) (some : (target s.dec (source base s) 1).2 + R.out.length ≠ 0) :
    (target s.dec (source base s) 1).1 + ((target s.dec (source base s) 1).2 + R.out.length) <
      s.avail - R.rest.length := by
  have inside := h.tracks.ready.inside
  have place := target_gap h.tracks.ready (source base s) 1
  rw [length_addresses] at inside
  have size : (unread s.dec s.mem (addresses base s.avail)).length = s.avail - s.dec.curr := by
    simp [unread]
  have enough : R.out.length + R.rest.length < gapAt s.dec (source base s) 1 +
      (unread s.dec s.mem (addresses base s.avail)).length →
      (target s.dec (source base s) 1).1 +
        ((target s.dec (source base s) 1).2 + R.out.length) < s.avail - R.rest.length := by
    omega
  rw [regular.variant] at scanned
  unfold scanAt at scanned
  split at scanned
  · cases left : unread s.dec s.mem (addresses base s.avail) with
    | nil => simp [left] at scanned
    | cons b rest =>
        simp only [left] at scanned
        split at scanned
        · cases scanned
        · obtain rfl := Option.some.inj scanned
          have keeps := scan_keeps_gap _ _ _ _ b.toNat_lt (by omega) more
          refine enough ?_
          rw [left, List.length_cons]
          omega
  · rename_i inBlock
    obtain rfl := Option.some.inj scanned
    have notClosed : s.dec.ctx ≠ 0 := by
      intro closed
      simp [closed] at inBlock
    by_cases gap : gapAt s.dec (source base s) 1 = 0
    · have none : s.dec.msg = none := by
        by_contra some
        exact notClosed (h.tracks.closed some)
      by_cases empty : s.dec.len = 0
      · rw [unread_eq _ _ inside] at more some
        rcases clean notClosed empty gap with all | delimiter
        · simp [all, scan, target, empty] at some
        · cases left : s.avail - s.dec.curr with
          | zero => simp [left, scan, target, empty] at some
          | succ k =>
              rw [left, Mem.read_succ, delimiter] at more
              exact absurd more (scan_delimiter _ _ _ _ (by omega))
      · have space := h.space notClosed empty
        simp only [gapAt, shift, none, Option.getD_none, Nat.sub_zero, empty, if_false] at gap
        omega
    · exact enough (scan_keeps_gap _ _ _ _ (by omega) (by omega) more)

/-- The next frame can be seen up to its delimiter. -/
def Complete (c : Codec) (fs : List Frame) (n avail : Nat) : Prop :=
  n < fs.length ∧ (stream c.variant (fs.take (n + 1))).length ≤ avail

theorem space_after (regular : Regular c) (h : Sound c base fs n s) (clean : Clean base s .call)
    {future : List Byte} {dec' : DecodeState} {m' : Mem Byte} {fs' : List Frame}
    (outcome : Outcome c s.mem (addresses base s.avail) future s.dec (source base s) 1 dec' m'
      fs' (.ok 0)) :
    dec'.ctx ≠ 0 → dec'.len ≠ 0 → dec'.pos + dec'.len < dec'.curr := by
  intro notClosed some
  cases outcome with
  | idle tracks ctx read state =>
      rw [state] at some
      exact absurd rfl some
  | goesOn tracks scanned codeNe state ret_eq =>
      rcases ret_eq with ⟨more, _⟩ | ⟨_, ret⟩
      · rw [state] at some ⊢
        simpa using keeps_space regular h clean scanned more some
      · cases ret

/-- What a clean call does: it delivers the next message if that is complete, and
    nothing otherwise. -/
theorem sound_call (regular : Regular c) (ok : ∀ f ∈ fs, f.Ok c) (h : Sound c base fs n s)
    (clean : Clean base s .call) :
    (Complete c fs n s.avail ∧ (step c base (stream c.variant fs).length s .call).2 = some (.ok 1) ∧
        Sound c base fs (n + 1) (step c base (stream c.variant fs).length s .call).1 ∧
        (step c base (stream c.variant fs).length s .call).1.dec.ctx = 0) ∨
      (¬ Complete c fs n s.avail ∧
        (step c base (stream c.variant fs).length s .call).2 = some (.ok 0) ∧
        Sound c base fs n (step c base (stream c.variant fs).length s .call).1) := by
  have avail := h.avail
  have total := stream_split c fs (n + 1)
  obtain ⟨dec', m', ret, call, outside, outcome⟩ :=
    decoder_outcome (fun f mem => ok f (List.mem_of_mem_drop mem)) (nodup_addresses base s.avail)
      h.tracks (by decide) (parts_source base s)
  have future : m'.read (base + s.avail) ((stream c.variant fs).length - s.avail) =
      s.mem.read (base + s.avail) ((stream c.variant fs).length - s.avail) := by
    apply Mem.read_congr
    intro i low high
    apply outside
    simp only [addresses, List.mem_map, List.mem_range]
    omega
  have settled := outcome.settled (enough_space regular h clean)
  simp only [step, call]
  rcases settled with ⟨rfl, f, fs', rest, tracks, isSome, message, seen⟩ |
      ⟨rfl, tracks, isNone, read, unseen⟩
  · have some : n < fs.length := by
      by_contra none
      rw [List.drop_of_length_le (by omega)] at rest
      cases rest
    have next : fs.drop (n + 1) = fs' := by
      rw [← List.drop_drop, rest]
      rfl
    have head : fs.take (n + 1) = fs.take n ++ [f] := by
      have : fs[n]? = Option.some f := by rw [← List.head?_drop, rest]; rfl
      rw [List.take_add_one, this]
      rfl
    rw [Mem.length_read] at seen
    rw [next] at total
    refine .inl ⟨⟨some, by omega⟩, rfl, ⟨some, ?_, avail, ?_, ?_⟩, ?_⟩
    · simp only [h.delivered, head, List.map_append, List.map_cons, List.map_nil]
      congr 2
      have order := tracks.ready.order
      have inside := tracks.ready.inside
      rw [length_addresses] at inside
      rw [drop_addresses _ _ _ (by omega), take_addresses _ _ _ (by omega), map_addresses]
        at message
      rw [reported, isSome, Option.getD_some, message]
    · simp only [next, future]
      exact tracks
    · intro notClosed
      exact absurd (tracks.closed (by simp [isSome])) notClosed
    · exact tracks.closed (by simp [isSome])
  · refine .inr ⟨?_, rfl, ⟨h.count, h.delivered, avail, by rw [future]; exact tracks, ?_⟩⟩
    · rintro ⟨some, seen⟩
      cases rest : fs.drop n with
      | nil =>
          have := congrArg List.length rest
          simp only [List.length_drop, List.length_nil] at this
          omega
      | cons f fs' =>
          have next : fs.drop (n + 1) = fs' := by
            rw [← List.drop_drop, rest]
            rfl
          have lt := unseen f fs' rest
          rw [Mem.length_read] at lt
          rw [next] at total
          omega
    · exact space_after regular h clean outcome

/-- The invariant holds along clean runs. -/
theorem sound_after (regular : Regular c) (ok : ∀ f ∈ fs, f.Ok c) (m : Mem Byte)
    (holds : m.read base (stream c.variant fs).length = stream c.variant fs) (ops : List Op)
    (clean : (machine c base (stream c.variant fs).length).Meets (Clean base) (.start m) ops) :
    ∃ n, Sound c base fs n ((machine c base (stream c.variant fs).length).after (.start m) ops) := by
  refine Machine.invariant (P := fun s => ∃ n, Sound c base fs n s) ?_
    ⟨0, sound_start m base holds⟩ clean
  rintro s op ⟨n, sound⟩ clean
  cases op with
  | grow k => exact ⟨n, sound_grow sound k⟩
  | call =>
      rcases sound_call regular ok sound clean with ⟨_, _, next, _⟩ | ⟨_, _, next⟩
      · exact ⟨n + 1, next⟩
      · exact ⟨n, next⟩

/-- With all of the stream in sight every call delivers a message. -/
theorem one_shot (regular : Regular c) (ok : ∀ f ∈ fs, f.Ok c) (k : Nat)
    (sound : Sound c base fs n s) (all : s.avail = (stream c.variant fs).length)
    (closed : s.dec.ctx = 0) (rest : n + k = fs.length) :
    ((machine c base (stream c.variant fs).length).after s (List.replicate k .call)).delivered =
      fs.map Frame.message := by
  induction k generalizing s n with
  | zero =>
      obtain rfl : n = fs.length := rest
      rw [List.replicate_zero, Machine.after, sound.delivered, List.take_length]
  | succ k ih =>
      have clean : Clean base s .call := fun notClosed => absurd closed notClosed
      have total := stream_split c fs (n + 1)
      rcases sound_call regular ok sound clean with ⟨_, _, next, closed'⟩ | ⟨incomplete, _⟩
      · exact ih next all closed' (by omega)
      · exact absurd ⟨by omega, by omega⟩ incomplete

/-- In every session of clean calls the messages delivered are the first ones of
    the stream, as when all of it is there at once; and a further clean call
    delivers the next one exactly when it is complete. -/
theorem incremental_delivery (regular : Regular c) (ok : ∀ f ∈ fs, f.Ok c) (m : Mem Byte)
    (holds : m.read base (stream c.variant fs).length = stream c.variant fs) (ops : List Op)
    (clean : (machine c base (stream c.variant fs).length).Meets (Clean base) (.start m) ops) :
    let M := machine c base (stream c.variant fs).length
    let s := M.after (.start m) ops
    let whole := M.after (.start m)
      (.grow (stream c.variant fs).length :: List.replicate fs.length .call)
    whole.delivered = fs.map Frame.message ∧
      ∃ n, n ≤ fs.length ∧ s.delivered = whole.delivered.take n ∧
        (Clean base s .call →
          (Complete c fs n s.avail ∧ (M.step s .call).2 = some (.ok 1) ∧
              (M.step s .call).1.delivered = whole.delivered.take (n + 1)) ∨
            (¬ Complete c fs n s.avail ∧ (M.step s .call).2 = some (.ok 0) ∧
              (M.step s .call).1.delivered = s.delivered)) := by
  intro M s whole
  have start := sound_start (c := c) m base holds
  have seen : (step c base (stream c.variant fs).length (.start m)
      (.grow (stream c.variant fs).length)).1.avail = (stream c.variant fs).length := by
    simp [step, Session.start]
  have all : whole.delivered = fs.map Frame.message :=
    one_shot regular ok fs.length (sound_grow start _) seen rfl (Nat.zero_add _)
  obtain ⟨n, sound⟩ := sound_after regular ok m holds ops clean
  refine ⟨all, n, sound.count, by rw [all, ← List.map_take]; exact sound.delivered, fun next => ?_⟩
  rcases sound_call regular ok sound next with ⟨complete, ret, after, _⟩ | ⟨incomplete, ret, after⟩
  · exact .inl ⟨complete, ret, by rw [all, ← List.map_take]; exact after.delivered⟩
  · exact .inr ⟨incomplete, ret, after.delivered.trans sound.delivered.symm⟩

/-- The messages 7 0 8 and 9 (the latter with its tail inlined) at address 16. -/
def streamExample : List Byte := [2, 7, 2, 8, 0, 9, 0]

theorem incremental_delivery_pieces :
    let M := machine .cobsR 16 7
    let s := M.after (.start fun i => streamExample.getD (i - 16) 0)
      [.grow 1, .call, .grow 3, .call, .grow 2, .call]
    ∃ n, n ≤ 2 ∧ s.delivered = ([[7, 0, 8], [9]] : List (List Byte)).take n := by
  intro M s
  have ok : ∀ f ∈ [(⟨[⟨[7], .zero⟩], [8], none⟩ : Frame), ⟨[], [], some 9⟩], f.Ok .cobsR := by
    simp only [List.mem_cons, List.not_mem_nil, or_false]
    rintro f (rfl | rfl)
    · exact ⟨by simpa using ⟨by decide, by decide⟩, by decide, by decide⟩
    · exact ⟨by simp, by decide, by decide⟩
  have holds : Mem.read (fun i => streamExample.getD (i - 16) 0) 16 7 =
      stream .regular [⟨[⟨[7], .zero⟩], [8], none⟩, ⟨[], [], some 9⟩] := by decide
  obtain ⟨whole, n, le, delivered, _⟩ := incremental_delivery (c := .cobsR) (.inr rfl) ok
    (fun i => streamExample.getD (i - 16) 0) holds
    [.grow 1, .call, .grow 3, .call, .grow 2, .call]
    ⟨trivial, by decide, trivial, by decide, trivial, by decide, trivial⟩
  exact ⟨n, le, by rw [whole] at delivered; exact delivered⟩

/-- A message of one byte at the odd address 17. -/
def oddExample : Mem Byte := fun i => if i = 17 then 2 else if i = 18 then 5 else 0

/-- The session in which no call gets on: the whole message can be seen, and its code
    is read. -/
def stalledExample : Session := ⟨⟨2, 1, 1, 0, none⟩, oddExample, 3, []⟩

theorem oddExample_first : step .cobs 17 3 ⟨.init, oddExample, 1, []⟩ .call =
    (⟨⟨2, 1, 0, 0, none⟩, oddExample, 1, []⟩, some (.ok 0)) := by
  have scanned : scanAt (Codec.cobs).variant DecodeState.init.ctx (gapAt .init [⟨17, 1⟩] 1)
      (((addresses 17 1).drop DecodeState.init.curr).map oddExample) =
        some ⟨[], [], 2, 0, .more⟩ := by decide
  have ready : Ready .init (addresses 17 1) := ⟨by decide, by decide, .inl rfl⟩
  have call := decoder_answer .cobs (nodup_addresses 17 1) ready (by decide)
    (show (sourceParts [⟨17, 1⟩] 1).bytes = addresses 17 1 by decide) scanned
  simp only [step, source, call]
  rfl

theorem oddExample_call {d : DecodeState} (ctx : d.ctx = 2) (curr : d.curr = 1)
    (len : d.len = 0) (msg : d.msg = none) (pos : d.pos ≤ 1)
    (place : target d [⟨17, 3⟩] 1 = (1, 0)) :
    step .cobs 17 3 ⟨d, oddExample, 3, []⟩ .call = (stalledExample, some (.ok 0)) := by
  have ready : Ready d (addresses 17 3) := ⟨by omega, by rw [curr]; decide, .inl msg⟩
  have gap := target_gap ready [⟨17, 3⟩] 1
  rw [place, curr] at gap
  have none : gapAt d [⟨17, 3⟩] 1 = 0 := by
    simp only at gap
    omega
  have scanned : scanAt (Codec.cobs).variant d.ctx (gapAt d [⟨17, 3⟩] 1)
      (((addresses 17 3).drop d.curr).map oddExample) = some ⟨[], [5, 0], 2, 0, .more⟩ := by
    rw [ctx, curr, none]
    decide
  have call := decoder_answer .cobs (nodup_addresses 17 3) ready (by decide) (by decide) scanned
  simp only [step, source, call, place]
  rfl

/-- The code byte of the message is seen first: the alignment at the next call takes
    the place that the code had, and no later call gets on. -/
theorem alignment_stalls :
    (⟨[], [5], none⟩ : Frame).bytes .regular = oddExample.read 17 3 ∧
      (machine .cobs 17 3).after (.start oddExample) [.grow 1, .call, .grow 2, .call] =
        stalledExample ∧
      ∀ k, (machine .cobs 17 3).after stalledExample (List.replicate k .call) = stalledExample := by
  have stuck : step .cobs 17 3 stalledExample .call = (stalledExample, some (.ok 0)) :=
    oddExample_call rfl rfl rfl rfl (Nat.le_refl 1) (by decide)
  refine ⟨by decide, ?_, fun k => ?_⟩
  · have seen : step .cobs 17 3 (.start oddExample) (.grow 1) =
        (⟨.init, oddExample, 1, []⟩, none) := rfl
    have more : step .cobs 17 3 ⟨⟨2, 1, 0, 0, none⟩, oddExample, 1, []⟩ (.grow 2) =
        (⟨⟨2, 1, 0, 0, none⟩, oddExample, 3, []⟩, none) := rfl
    have last := oddExample_call (d := ⟨2, 1, 0, 0, none⟩) rfl rfl rfl rfl (by decide)
      (by decide)
    simp only [Machine.after, machine, seen, oddExample_first, more, last]
  · induction k with
    | zero => rfl
    | succ k ih =>
        rw [List.replicate_succ, Machine.after]
        simp only [machine, stuck] at ih ⊢
        exact ih

end Mpt.Cobs.Incremental
