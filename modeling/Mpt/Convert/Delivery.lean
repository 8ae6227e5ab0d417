import Mpt.Convert.DecodeSpec

/-! # Delivering a stream of frames

`Tracks` relates the state of a decoder to what it has still to deliver: the
decoded bytes of the current message, the unread bytes and those that are not
there yet make up the remaining frames.  Every call keeps it, whatever the free
space; with enough space a call delivers a message as soon as its delimiter is
there.
-/

namespace Mpt.Cobs

/-- The encoded form of a sequence of frames. -/
def stream (v : Variant) (fs : List Frame) : List Byte := fs.flatMap (Frame.bytes v)

@[simp] theorem stream_cons (v : Variant) (f : Frame) (fs : List Frame) :
    stream v (f :: fs) = f.bytes v ++ stream v fs := rfl

@[simp] theorem stream_append (v : Variant) (fs fs' : List Frame) :
    stream v (fs ++ fs') = stream v fs ++ stream v fs' := by
  simp [stream]

theorem stream_split (c : Codec) (fs : List Frame) (n : Nat) : (stream c.variant fs).length =
    (stream c.variant (fs.take n)).length + (stream c.variant (fs.drop n)).length := by
  rw [← List.length_append, ← stream_append, List.take_append_drop]

/-- From the saved state `ctx`, with the decoded bytes `part` of a message, the
    bytes `rest` complete the frames `fs`. -/
inductive Pending (c : Codec) : Nat → List Byte → List Byte → List Frame → Prop where
  | between (fs : List Frame) : Pending c 0 [] (stream c.variant fs) fs
  | inside {code pos : Nat} {part out rest : List Byte} {f : Frame} {fs : List Frame}
      (codeNe : code ≠ 0) (low : code < 0x100) (high : pos < 0x100)
      (ends : (walk c.variant code pos rest).complete c = some (out, stream c.variant fs))
      (message : part ++ out = f.message) :
      Pending c (cobsState code pos) part rest (f :: fs)

/-- What a scan of the first unread bytes does to a stream. -/
inductive Scanned (c : Codec) (part future : List Byte) (R : Scan) : List Frame → Prop where
  | message {out rest : List Byte} {f : Frame} {fs : List Frame}
      (complete : R.complete c = some (out, rest)) (message : part ++ out = f.message)
      (next : rest ++ future = stream c.variant fs) : Scanned c part future R (f :: fs)
  | goesOn {fs : List Frame} (incomplete : R.complete c = none)
      (stop : R.stop = .more ∨ R.stop = .missingBuffer)
      (pending : Pending c (cobsState R.code R.pos) (part ++ R.out) (R.rest ++ future) fs) :
      Scanned c part future R fs

theorem scanned_of_walk {c : Codec} {code pos gap : Nat} {src future part out : List Byte}
    {f : Frame} {fs : List Frame} (low : code < 0x100) (high : pos < 0x100)
    (ends : (walk c.variant code pos (src ++ future)).complete c =
      some (out, stream c.variant fs))
    (message : part ++ out = f.message) :
    Scanned c part future (scan c.variant code pos gap src) (f :: fs) := by
  have bounds := scan_bounds (v := c.variant) code pos gap src low high
  by_cases isOpen : (scan c.variant code pos gap src).stop = .more ∨
      (scan c.variant code pos gap src).stop = .missingBuffer
  · rw [walk_open code pos gap src future isOpen, complete_after, Option.map_eq_some_iff] at ends
    obtain ⟨⟨out', rest⟩, later, eq⟩ := ends
    obtain ⟨rfl, rfl⟩ := Prod.mk.inj eq
    refine .goesOn ?_ isOpen (.inside (scan_open_code _ _ _ _ isOpen) bounds.1 bounds.2 later ?_)
    · unfold Scan.complete
      rcases isOpen with h | h <;> rw [h]
    · rw [List.append_assoc, message]
  · have isClosed : (scan c.variant code pos gap src).stop = .done ∨
        (scan c.variant code pos gap src).stop = .missingData := by
      cases h : (scan c.variant code pos gap src).stop with
      | more => exact absurd (.inl h) isOpen
      | done => exact .inl rfl
      | missingData => exact .inr rfl
      | missingBuffer => exact absurd (.inr h) isOpen
    rw [walk_closed code pos gap src future isClosed] at ends
    rcases isClosed with h | h
    · simp only [Scan.complete, h] at ends
      obtain ⟨rfl, next⟩ := Prod.mk.inj (Option.some.inj ends)
      exact .message (by simp only [Scan.complete, h]) message next
    · obtain ⟨rest, inline, _⟩ := scan_missing _ _ _ _ h
      simp only [Scan.complete, h] at ends
      split at ends
      · rename_i isTail
        obtain ⟨rfl, next⟩ := Prod.mk.inj (Option.some.inj ends)
        rw [inline] at next
        have complete : (scan c.variant code pos gap src).complete c =
            some ((scan c.variant code pos gap src).out ++
              [.ofNat (scan c.variant code pos gap src).code], rest) := by
          simp only [Scan.complete, h, isTail, if_true, inline, List.tail_cons]
        exact .message complete message next
      · cases ends

/-- A call that gets to scan its unread bytes. -/
theorem scanned_of_pending {c : Codec} {ctx gap : Nat} {unread future part : List Byte}
    {fs : List Frame} (ok : ∀ f ∈ fs, f.Ok c) (pending : Pending c ctx part (unread ++ future) fs) :
    (ctx = 0 ∧ unread = [] ∧ scanAt c.variant ctx gap unread = none) ∨
      ∃ R, scanAt c.variant ctx gap unread = some R ∧ Scanned c part future R fs := by
  generalize total : unread ++ future = rest at pending
  cases pending with
  | between =>
      cases unread with
      | nil => exact .inl ⟨rfl, rfl, rfl⟩
      | cons b unread =>
          cases fs with
          | nil => cases total
          | cons f fs =>
              obtain ⟨b', l, eq, nonzero, decodes⟩ :=
                walk_frame (ok f (by simp)) (stream c.variant fs)
              rw [stream_cons, eq] at total
              obtain ⟨rfl, tail⟩ : b = b' ∧ unread ++ future = l ++ stream c.variant fs := by
                simpa using total
              rw [← tail] at decodes
              refine .inr ⟨scan c.variant b.toNat 0 (gap + 1) unread, by simp [scanAt, nonzero], ?_⟩
              exact scanned_of_walk b.toNat_lt (by decide) decodes (List.nil_append _)
  | inside codeNe low high ends message =>
      subst total
      obtain ⟨codeEq, posEq⟩ := saved_state low high
      refine .inr ⟨_, by unfold scanAt; rw [codeEq, posEq, if_neg codeNe], ?_⟩
      exact scanned_of_walk low high ends message

/-- The decoded bytes of the message in progress. -/
def part (dec : DecodeState) (m : Mem Byte) (A : List Nat) : List Byte :=
  if dec.msg = none then ((A.drop dec.pos).take dec.len).map m else []

/-- The unread bytes. -/
def unread (dec : DecodeState) (m : Mem Byte) (A : List Nat) : List Byte :=
  (A.drop dec.curr).map m

/-- The decoder has still to deliver the frames `fs`; the bytes `future` of them
    are not there yet. -/
structure Tracks (c : Codec) (dec : DecodeState) (m : Mem Byte) (A : List Nat)
    (future : List Byte) (fs : List Frame) : Prop where
  ready : Ready dec A
  closed : dec.msg ≠ none → dec.ctx = 0
  pending : Pending c dec.ctx (part dec m A) (unread dec m A ++ future) fs

/-- More bytes of the stream become available. -/
theorem Tracks.grow {c : Codec} {dec : DecodeState} {m : Mem Byte} {A B : List Nat}
    {future : List Byte} {fs : List Frame} (t : Tracks c dec m A (B.map m ++ future) fs) :
    Tracks c dec m (A ++ B) future fs := by
  obtain ⟨⟨order, inside, msg⟩, closed, pending⟩ := t
  refine ⟨⟨order, by rw [List.length_append]; omega, msg⟩, closed, ?_⟩
  have same : part dec m (A ++ B) = part dec m A := by
    unfold part
    rw [List.drop_append_of_le_length (by omega),
      List.take_append_of_le_length (by rw [List.length_drop]; omega)]
  have more : unread dec m (A ++ B) ++ future = unread dec m A ++ (B.map m ++ future) := by
    unfold unread
    rw [List.drop_append_of_le_length inside, List.map_append, List.append_assoc]
  rwa [same, more]

/-- Only the bytes matter, not where they are. -/
theorem Tracks.congr {c : Codec} {dec : DecodeState} {m m' : Mem Byte} {A B : List Nat}
    {future : List Byte} {fs : List Frame} (t : Tracks c dec m A future fs)
    (same : B.map m' = A.map m) : Tracks c dec m' B future fs := by
  obtain ⟨⟨order, inside, msg⟩, closed, pending⟩ := t
  have length := congrArg List.length same
  rw [List.length_map, List.length_map] at length
  refine ⟨⟨order, by rw [length]; exact inside, msg⟩, closed, ?_⟩
  have decoded : part dec m' B = part dec m A := by
    unfold part
    rw [List.map_take, List.map_drop, List.map_take, List.map_drop, same]
  have rest : unread dec m' B = unread dec m A := by
    unfold unread
    rw [List.map_drop, List.map_drop, same]
  rwa [decoded, rest]

/-- Bytes in front of the message are removed, or those in front of the unread bytes
    where none of the message is decoded. -/
theorem Tracks.drop {c : Codec} {dec : DecodeState} {m : Mem Byte} {A : List Nat}
    {future : List Byte} {fs : List Frame} (t : Tracks c dec m A future fs) {k pos : Nat}
    (le : k ≤ dec.curr)
    (kept : k ≤ dec.pos ∧ pos = dec.pos - k ∨ dec.len = 0 ∧ pos ≤ dec.curr - k) :
    Tracks c { dec with curr := dec.curr - k, pos := pos } m (A.drop k) future fs := by
  obtain ⟨⟨order, inside, msg⟩, closed, pending⟩ := t
  have decoded : part { dec with curr := dec.curr - k, pos := pos } m (A.drop k) =
      part dec m A := by
    unfold part
    rcases kept with ⟨le, rfl⟩ | ⟨empty, _⟩
    · simp only [List.drop_drop, Nat.add_sub_cancel' le]
    · simp [empty]
  have rest : unread { dec with curr := dec.curr - k, pos := pos } m (A.drop k) =
      unread dec m A := by
    simp only [unread, List.drop_drop, Nat.add_sub_cancel' le]
  refine ⟨⟨?_, ?_, msg⟩, closed, by rw [decoded, rest]; exact pending⟩
  · simp only
    omega
  · simp only [List.length_drop]
    omega

theorem scanAt_suffix {v : Variant} {ctx gap : Nat} {src : List Byte} {R : Scan}
    (scanned : scanAt v ctx gap src = some R) : ∃ front, src = front ++ R.rest := by
  unfold scanAt at scanned
  split at scanned
  · cases src with
    | nil => cases scanned
    | cons b rest =>
        simp only at scanned
        split at scanned
        · cases scanned
        · obtain rfl := Option.some.inj scanned
          obtain ⟨front, eq⟩ := scan_suffix (v := v) b.toNat (ctx % 0x10000 / 0x100) (gap + 1) rest
          exact ⟨b :: front, congrArg _ eq⟩
  · obtain rfl := Option.some.inj scanned
    exact scan_suffix _ _ _ _

/-- The decoded bytes that a call goes on from. -/
theorem part_target {c : Codec} {dec : DecodeState} {m : Mem Byte} {A : List Nat}
    {future : List Byte} {fs : List Frame} (t : Tracks c dec m A future fs)
    (source : List Iovec) (sourcelen : Nat) :
    ((A.drop (target dec source sourcelen).1).take (target dec source sourcelen).2).map m =
      part dec m A := by
  unfold target part
  rcases t.ready.msg with none | some
  · simp only [none, Option.getD_none, Nat.sub_zero, if_true]
    by_cases empty : dec.len = 0
    · simp [empty]
    · simp [empty]
  · simp [some]

/-- Storing the result of a scan keeps what it left unread. -/
theorem unread_scatter {v : Variant} {m : Mem Byte} {A : List Nat} (nodup : A.Nodup)
    {dec : DecodeState} (ready : Ready dec A) (source : List Iovec) (sourcelen : Nat) {R : Scan}
    (scanned : scanAt v dec.ctx (gapAt dec source sourcelen) (unread dec m A) = some R)
    {out rest : List Byte} (short : out.length + rest.length ≤ R.out.length + R.rest.length)
    (suffix : ∃ front, R.rest = front ++ rest) :
    let w := (target dec source sourcelen).1 + (target dec source sourcelen).2
    w + out.length + rest.length ≤ A.length ∧ dec.curr + rest.length ≤ A.length ∧
      (A.drop (A.length - rest.length)).map (m.scatter (A.drop w) out) = rest := by
  intro w
  have gap := target_gap ready source sourcelen
  have inside := ready.inside
  obtain ⟨code, pos, gap', src, eq, _, _, total⟩ := scanAt_cases scanned
  have size := scan_size (v := v) code pos gap' src
  rw [← eq] at size
  have length : (unread dec m A).length = A.length - dec.curr := by simp [unread]
  have ends : ∃ front, unread dec m A = front ++ rest := by
    obtain ⟨front, left⟩ := suffix
    obtain ⟨front', src'⟩ := scanAt_suffix scanned
    exact ⟨front' ++ front, by rw [src', left, List.append_assoc]⟩
  obtain ⟨front, whole⟩ := ends
  have sizes := congrArg List.length whole
  rw [length, List.length_append] at sizes
  have start : A.length - rest.length = dec.curr + front.length := by omega
  have fits : w + out.length + rest.length ≤ A.length := by omega
  refine ⟨fits, by omega, ?_⟩
  rw [Mem.map_scatter_behind m nodup out (by omega), start, ← List.drop_drop, List.map_drop]
  have tail := congrArg (List.drop front.length) whole
  rwa [List.drop_left] at tail

/-- Behind a delimiter no byte of the next message is decoded. -/
theorem Pending.part_nil {c : Codec} {ctx : Nat} {part rest : List Byte} {fs : List Frame}
    (pending : Pending c ctx part rest fs) (closed : ctx = 0) : part = [] := by
  cases pending with
  | between => rfl
  | inside codeNe =>
      unfold cobsState at closed
      omega

theorem target_fresh {dec : DecodeState} {m : Mem Byte} {A : List Nat} (ready : Ready dec A)
    (nothing : part dec m A = []) (source : List Iovec) (sourcelen : Nat) :
    (target dec source sourcelen).2 = 0 := by
  have order := ready.order
  have inside := ready.inside
  unfold part at nothing
  unfold target
  rcases ready.msg with none | some
  · rw [none, if_pos rfl] at nothing
    have size := congrArg List.length nothing
    simp only [List.length_map, List.length_take, List.length_drop, List.length_nil] at size
    have empty : dec.len = 0 := by omega
    simp [empty]
  · simp [some]

/-- The outcome of a call on a tracked stream: the state and the storage it leaves
    and its result. -/
inductive Outcome (c : Codec) (m : Mem Byte) (A : List Nat) (future : List Byte)
    (dec : DecodeState) (source : List Iovec) (sourcelen : Nat) (dec' : DecodeState)
    (m' : Mem Byte) : List Frame → Except Error Nat → Prop where
  /-- a message is complete -/
  | message {f : Frame} {fs : List Frame} (tracks : Tracks c dec' m' A future fs)
      (isSome : dec'.msg = some dec'.len)
      (message : ((A.drop dec'.pos).take dec'.len).map m' = f.message) :
      Outcome c m A future dec source sourcelen dec' m' (f :: fs) (.ok 1)
  /-- there is no byte behind the last delimiter -/
  | idle {fs : List Frame} (tracks : Tracks c dec' m' A future fs) (ctx : dec.ctx = 0)
      (read : dec.curr = A.length)
      (state : dec' = ⟨0, dec.curr, (target dec source sourcelen).1, 0, none⟩) :
      Outcome c m A future dec source sourcelen dec' m' fs (.ok 0)
  /-- the message goes on behind what was scanned -/
  | goesOn {fs : List Frame} {R : Scan} (tracks : Tracks c dec' m' A future fs)
      (scanned : scanAt c.variant dec.ctx (gapAt dec source sourcelen) (unread dec m A) = some R)
      (codeNe : R.code ≠ 0)
      (state : dec' = ⟨cobsState R.code R.pos, A.length - R.rest.length,
        (target dec source sourcelen).1, (target dec source sourcelen).2 + R.out.length, none⟩)
      {ret : Except Error Nat} (ret_eq : (R.stop = .more ∧ ret = .ok 0) ∨
        (R.stop = .missingBuffer ∧ ret = .error .missingBuffer)) :
      Outcome c m A future dec source sourcelen dec' m' fs ret

/-- The decoded and the unread bytes after a scan has been stored. -/
theorem scatter_parts {c : Codec} {m : Mem Byte} {A : List Nat} {future : List Byte}
    {fs : List Frame} (nodup : A.Nodup) {dec : DecodeState} (t : Tracks c dec m A future fs)
    (source : List Iovec) (sourcelen : Nat) {R : Scan}
    (scanned : scanAt c.variant dec.ctx (gapAt dec source sourcelen) (unread dec m A) = some R)
    {out rest : List Byte} (short : out.length + rest.length ≤ R.out.length + R.rest.length)
    (suffix : ∃ front, R.rest = front ++ rest) {at_ : Nat × Nat}
    (place : target dec source sourcelen = at_) :
    let m' := m.scatter (A.drop (at_.1 + at_.2)) out
    at_.1 + (at_.2 + out.length) ≤ A.length - rest.length ∧ rest.length ≤ A.length ∧
      (A.drop (A.length - rest.length)).map m' = rest ∧
      ((A.drop at_.1).take (at_.2 + out.length)).map m' = part dec m A ++ out := by
  subst place
  obtain ⟨fits, read, left⟩ := unread_scatter nodup t.ready source sourcelen scanned short suffix
  refine ⟨by omega, by omega, left, ?_⟩
  rw [Mem.map_scatter_window m nodup out (by omega), part_target t]

/-- One call of a decoder on a tracked stream. -/
theorem decoder_outcome {c : Codec} {m : Mem Byte} {A : List Nat} {future : List Byte}
    {fs : List Frame} (ok : ∀ f ∈ fs, f.Ok c) (nodup : A.Nodup) {dec : DecodeState}
    (t : Tracks c dec m A future fs) {source : List Iovec} {sourcelen : Nat}
    (all : sourcelen ≠ 0) (parts : (sourceParts source sourcelen).bytes = A) :
    ∃ dec' m' ret, c.decoder dec m (some source) sourcelen = (dec', m', ret) ∧
      (∀ a, a ∉ A → m' a = m a) ∧
      Outcome c m A future dec source sourcelen dec' m' fs ret := by
  have outside : ∀ (w : Nat) (out : List Byte) (a : Nat), a ∉ A →
      m.scatter (A.drop w) out a = m a := by
    intro w out a other
    exact Mem.scatter_outside m out
      (fun h => other (List.mem_of_mem_drop (List.mem_of_mem_take h)))
  rcases scanned_of_pending ok t.pending with ⟨ctx, end_, _⟩ | ⟨R, scanned, effect⟩
  · have read : dec.curr = A.length := by
      have size := congrArg List.length end_
      have inside := t.ready.inside
      simp only [unread, List.length_map, List.length_drop, List.length_nil] at size
      omega
    have call := decoder_empty c t.ready all parts (m := m) (by rw [ctx]) read
    have nothing := t.pending.part_nil ctx
    have fresh := target_fresh t.ready nothing source sourcelen
    have gap := target_gap t.ready source sourcelen
    have state : opened? dec source sourcelen =
        ⟨0, dec.curr, (target dec source sourcelen).1, 0, none⟩ := by
      rw [opened?, ctx, fresh]
    rw [state] at call
    refine ⟨_, _, _, call, fun _ _ => rfl, .idle ⟨⟨by simp only; omega, t.ready.inside, .inl rfl⟩,
      fun h => absurd rfl h, ?_⟩ ctx read rfl⟩
    have pending := t.pending
    rw [nothing, ctx] at pending
    simpa [part, unread] using pending
  · have call := decoder_answer c nodup t.ready all parts scanned
    obtain ⟨code, pos, gap', src, eq, low, high, _⟩ := scanAt_cases scanned
    rcases place : target dec source sourcelen with ⟨start, len⟩
    rw [place] at call
    cases effect with
    | message complete message next =>
        rename_i out rest f fs
        obtain ⟨short, suffix⟩ := complete_parts scanned complete
        obtain ⟨fits, le, left, decoded⟩ :=
          scatter_parts nodup t source sourcelen scanned short suffix place
        simp only [answer, complete] at call
        refine ⟨_, _, _, call, outside _ _, .message ⟨⟨fits, Nat.sub_le _ _, .inr rfl⟩,
          fun _ => rfl, ?_⟩ rfl (decoded.trans message)⟩
        simp only [part, unread, left, next, reduceCtorEq, if_false]
        exact .between fs
    | goesOn incomplete stop pending =>
        obtain ⟨fits, le, left, decoded⟩ := scatter_parts nodup t source sourcelen scanned
          (Nat.le_refl _) ⟨[], rfl⟩ place
        have codeNe : R.code ≠ 0 := by
          rw [eq] at stop ⊢
          exact scan_open_code _ _ _ _ stop
        simp only [answer, incomplete, report] at call
        have tracks : Tracks c ⟨cobsState R.code R.pos, A.length - R.rest.length, start,
            len + R.out.length, none⟩ (m.scatter (A.drop (start + len)) R.out) A future fs := by
          refine ⟨⟨fits, Nat.sub_le _ _, .inl rfl⟩, fun h => absurd rfl h, ?_⟩
          simpa only [part, unread, left, decoded, if_true] using pending
        rcases stop with stop | stop
        · rw [stop] at call
          exact ⟨_, _, _, call, outside _ _, .goesOn tracks scanned codeNe
            (by rw [place]) (.inl ⟨stop, rfl⟩)⟩
        · rw [stop] at call
          exact ⟨_, _, _, call, outside _ _, .goesOn tracks scanned codeNe
            (by rw [place]) (.inr ⟨stop, rfl⟩)⟩

/-- The saved state is that of a delimiter, or a code and a position. -/
theorem Pending.ctx_cases {c : Codec} {ctx : Nat} {part rest : List Byte} {fs : List Frame}
    (pending : Pending c ctx part rest fs) :
    ctx = 0 ∨ ∃ code pos, code ≠ 0 ∧ code < 0x100 ∧ pos < 0x100 ∧ ctx = cobsState code pos := by
  cases pending with
  | between => exact .inl rfl
  | inside codeNe low high => exact .inr ⟨_, _, codeNe, low, high, rfl⟩

theorem Pending.rest_lt {c : Codec} {ctx : Nat} {part rest : List Byte} {f : Frame}
    {fs : List Frame} (pending : Pending c ctx part rest (f :: fs)) :
    (stream c.variant fs).length < rest.length := by
  cases pending with
  | between => simp [Frame.bytes]; omega
  | inside codeNe low high ends message => exact complete_rest_lt codeNe ends

theorem Pending.stream_eq {c : Codec} {ctx : Nat} {part rest : List Byte} {fs : List Frame}
    (pending : Pending c ctx part rest fs) (closed : ctx = 0) : rest = stream c.variant fs := by
  cases pending with
  | between => rfl
  | inside codeNe =>
      unfold cobsState at closed
      omega

theorem stream_eq_nil {v : Variant} {fs : List Frame} (nothing : stream v fs = []) : fs = [] := by
  cases fs with
  | nil => rfl
  | cons f fs => simp [Frame.bytes] at nothing

/-- The number of decoded bytes of the message in progress. -/
def seen (dec : DecodeState) : Nat := dec.len - dec.msg.getD 0

theorem target_seen {dec : DecodeState} {A : List Nat} (ready : Ready dec A)
    (source : List Iovec) (sourcelen : Nat) :
    (target dec source sourcelen).2 = seen dec := by
  unfold target seen
  rcases ready.msg with none | some
  · simp only [none, Option.getD_none, Nat.sub_zero]
    split
    · simp [*]
    · rfl
  · simp [some]

theorem length_part {dec : DecodeState} {A : List Nat} (ready : Ready dec A) (m : Mem Byte) :
    (part dec m A).length = seen dec := by
  have order := ready.order
  have inside := ready.inside
  unfold part seen
  rcases ready.msg with none | some
  · simp only [none, if_true, Option.getD_none, List.length_map, List.length_take,
      List.length_drop]
    omega
  · simp [some]

theorem Pending.part_le {c : Codec} {ctx : Nat} {part rest : List Byte} {f : Frame}
    {fs : List Frame} (pending : Pending c ctx part rest (f :: fs)) :
    part.length ≤ f.message.length := by
  cases pending with
  | between => exact Nat.zero_le _
  | inside codeNe low high ends message =>
      rw [← message, List.length_append]
      exact Nat.le_add_right _ _

/-- Where all of the stream is there and an open block has free space, a call
    delivers a message, or finds that there is none, or decodes something and asks
    for space. -/
theorem Outcome.advance {c : Codec} {m m' : Mem Byte} {A : List Nat} {dec dec' : DecodeState}
    {source : List Iovec} {sourcelen : Nat} {fs : List Frame} {ret : Except Error Nat}
    (t : Tracks c dec m A [] fs)
    (o : Outcome c m A [] dec source sourcelen dec' m' fs ret)
    (space : dec.ctx ≠ 0 → 0 < gapAt dec source sourcelen) :
    (ret = .ok 1 ∧ ∃ f fs', fs = f :: fs' ∧ Tracks c dec' m' A [] fs' ∧
        dec'.msg = some dec'.len ∧ ((A.drop dec'.pos).take dec'.len).map m' = f.message) ∨
      (ret = .ok 0 ∧ fs = []) ∨
      (ret = .error .missingBuffer ∧ Tracks c dec' m' A [] fs ∧ dec'.msg = none ∧
        seen dec < dec'.len) := by
  cases o with
  | message tracks isSome message => exact .inl ⟨rfl, _, _, rfl, tracks, isSome, message⟩
  | idle tracks ctx read state =>
      have rest := t.pending.stream_eq ctx
      simp only [unread, read, List.drop_length, List.map_nil, List.append_nil] at rest
      exact .inr (.inl ⟨rfl, stream_eq_nil rest.symm⟩)
  | goesOn tracks scanned codeNe state ret_eq =>
      rename_i R
      have progress : (R.stop = .more → R.rest = []) ∧ (R.stop = .missingBuffer → R.out ≠ []) := by
        unfold scanAt at scanned
        split at scanned
        · cases h : unread dec m A with
          | nil => simp [h] at scanned
          | cons b rest =>
              simp only [h] at scanned
              split at scanned
              · cases scanned
              · obtain rfl := Option.some.inj scanned
                exact scan_advance _ _ _ _ (Nat.succ_pos _)
        · rename_i inBlock
          obtain rfl := Option.some.inj scanned
          exact scan_advance _ _ _ _ (space fun closed => inBlock (by rw [closed]))
      rcases ret_eq with ⟨more, rfl⟩ | ⟨buffer, rfl⟩
      · -- the end of the input is the end of the stream
        have read : dec'.curr = A.length := by
          rw [state]
          simp [progress.1 more]
        cases fs with
        | nil => exact .inr (.inl ⟨rfl, rfl⟩)
        | cons f fs' =>
            have lt := tracks.pending.rest_lt
            simp [unread, read] at lt
      · refine .inr (.inr ⟨rfl, tracks, by rw [state], ?_⟩)
        have some := List.length_pos_iff.mpr (progress.2 buffer)
        rw [state, target_seen t.ready]
        simp only
        omega

/-- With enough space a call delivers the next message exactly when its delimiter
    is there; otherwise it reads all there is. -/
theorem Outcome.settled {c : Codec} {m m' : Mem Byte} {A : List Nat} {future : List Byte}
    {dec dec' : DecodeState} {source : List Iovec} {sourcelen : Nat} {fs : List Frame}
    {ret : Except Error Nat}
    (o : Outcome c m A future dec source sourcelen dec' m' fs ret)
    (enough : needAt c.variant dec.ctx (unread dec m A) ≤ gapAt dec source sourcelen) :
    (ret = .ok 1 ∧ ∃ f fs', fs = f :: fs' ∧ Tracks c dec' m' A future fs' ∧
        dec'.msg = some dec'.len ∧ ((A.drop dec'.pos).take dec'.len).map m' = f.message ∧
        future.length ≤ (stream c.variant fs').length) ∨
      (ret = .ok 0 ∧ Tracks c dec' m' A future fs ∧ dec'.msg = none ∧ dec'.curr = A.length ∧
        ∀ f fs', fs = f :: fs' → (stream c.variant fs').length < future.length) := by
  have waiting : ∀ {fs}, Tracks c dec' m' A future fs → dec'.curr = A.length →
      ∀ f fs', fs = f :: fs' → (stream c.variant fs').length < future.length := by
    rintro _ tracks all f fs' rfl
    have lt := tracks.pending.rest_lt
    simpa [unread, all] using lt
  cases o with
  | message tracks isSome message =>
      rename_i f fs'
      refine .inl ⟨rfl, f, fs', rfl, tracks, isSome, message, ?_⟩
      have closed := tracks.closed (by simp [isSome])
      rw [← tracks.pending.stream_eq closed, List.length_append]
      omega
  | idle tracks ctx read state =>
      have all : dec'.curr = A.length := by rw [state, read]
      exact .inr ⟨rfl, tracks, by rw [state], all, waiting tracks all⟩
  | goesOn tracks scanned codeNe state ret_eq =>
      obtain ⟨noBuffer, all⟩ := scanAt_enough scanned enough
      rcases ret_eq with ⟨more, rfl⟩ | ⟨buffer, _⟩
      · have read : dec'.curr = A.length := by
          rw [state]
          simp [all more]
        exact .inr ⟨rfl, tracks, by rw [state], read, waiting tracks read⟩
      · exact absurd buffer noBuffer

end Mpt.Cobs
