import Mpt.Convert.Delivery
import Mpt.Convert.InPlace
import Mpt.Run

/-! # Stray delimiters

A stream of frames with additional zeros between them, all of it in sight.  The
decoder answers each additional zero with an error; a caller that goes on calling
gets the messages of the frames as long as the position behind the zero is the right
one.
-/

namespace Mpt.Cobs.Resync

/-- What a stream is made of. -/
inductive Item where
  | stray
  | frame (f : Frame)

def Item.bytes (v : Variant) : Item → List Byte
  | .stray => [0]
  | .frame f => f.bytes v

def Item.message : Item → Option (List Byte)
  | .stray => none
  | .frame f => some f.message

def bytes (v : Variant) (items : List Item) : List Byte := items.flatMap (Item.bytes v)

/-- The messages of the frames. -/
def messages (items : List Item) : List (List Byte) := items.filterMap Item.message

/-- The stream without the additional zeros. -/
def plain (items : List Item) : List Item :=
  items.filter fun item => match item with
    | .stray => false
    | .frame _ => true

theorem messages_plain (items : List Item) : messages (plain items) = messages items := by
  induction items with
  | nil => rfl
  | cons item items ih =>
      cases item with
      | stray => exact ih
      | frame f =>
          unfold messages plain at ih ⊢
          simp [Item.message, ih]

theorem length_plain (items : List Item) : (plain items).length ≤ items.length :=
  List.length_filter_le _ _

theorem stray_notMem_plain (items : List Item) : Item.stray ∉ plain items := by
  simp [plain]

/-- A decoder in the course of a stream, with the messages delivered so far. -/
structure Session where
  dec : DecodeState
  mem : Mem Byte
  delivered : List (List Byte)

def Session.start (m : Mem Byte) : Session := ⟨.init, m, []⟩

/-- A call; an error is ignored. -/
def step (c : Codec) (source : List Iovec) (s : Session) :
    Unit → Session × Except Error Nat := fun _ =>
  let (dec, mem, ret) := c.decoder s.dec s.mem (some source) source.length
  let delivered := match ret with
    | .ok 1 => s.delivered ++ [(((InPlace.total source).drop dec.pos).take dec.len).map mem]
    | _ => s.delivered
  (⟨dec, mem, delivered⟩, ret)

def machine (c : Codec) (source : List Iovec) : Machine Session Unit (Except Error Nat) where
  step := step c source

/-- A zero where a message should start is met before anything was decoded or skipped. -/
def Clean (source : List Iovec) (s : Session) : Unit → Prop := fun _ =>
  InPlace.ZeroAhead s.mem (InPlace.total source) s.dec →
    s.dec.pos + s.dec.len + shift s.dec source source.length = 0

/-- The decoder stands in front of the items from the `k`-th on. -/
structure Sound (c : Codec) (source : List Iovec) (items : List Item) (k : Nat) (s : Session) :
    Prop where
  ready : Ready s.dec (InPlace.total source)
  closed : s.dec.ctx = 0
  seen : seen s.dec = 0
  unread : unread s.dec s.mem (InPlace.total source) = bytes c.variant (items.drop k)
  delivered : s.delivered = messages (items.take k)

section Step

variable {c : Codec} {source : List Iovec} {items : List Item} {k : Nat} {s : Session}

theorem sound_start (m : Mem Byte)
    (holds : (InPlace.total source).map m = bytes c.variant items) :
    Sound c source items 0 (.start m) :=
  ⟨⟨Nat.le_refl _, Nat.zero_le _, .inl rfl⟩, rfl, rfl, holds, rfl⟩

theorem messages_take_succ {item : Item} (here : items[k]? = some item) :
    messages (items.take (k + 1)) = messages (items.take k) ++ item.message.toList := by
  unfold messages
  rw [List.take_add_one, here, List.filterMap_append]
  cases item <;> rfl

/-- Behind the last item a call finds nothing. -/
theorem step_end (h : Sound c source items k s) (all : source.length ≠ 0)
    (ends : items.drop k = []) : Sound c source items (k + 1) (step c source s ()).1 := by
  have parts := InPlace.view_all source
  have read : s.dec.curr = (InPlace.total source).length := by
    have size := congrArg List.length h.unread
    have inside := h.ready.inside
    rw [ends] at size
    simp only [unread, bytes, List.length_map, List.length_drop, List.flatMap_nil,
      List.length_nil] at size
    omega
  have call := decoder_empty c h.ready all parts (m := s.mem) (by rw [h.closed]) read
  have gap := target_gap h.ready source source.length
  have fresh := target_seen h.ready source source.length
  rw [h.seen] at fresh
  simp only [step, call]
  have past : items.length ≤ k := List.drop_eq_nil_iff.mp ends
  refine ⟨⟨?_, ?_, .inl rfl⟩, h.closed, ?_, ?_, ?_⟩
  · simp only [opened?]
    omega
  · exact h.ready.inside
  · simp only [seen, opened?, Option.getD_none]
    omega
  · simp only [opened?]
    rw [List.drop_eq_nil_of_le (Nat.le_succ_of_le past), ← ends]
    exact h.unread
  · simp only
    rw [h.delivered, List.take_of_length_le past, List.take_of_length_le (Nat.le_succ_of_le past)]

/-- A stray zero in front of which nothing was decoded is skipped. -/
theorem step_stray (h : Sound c source items k s) (here : items[k]? = some .stray)
    (clean : Clean source s ()) : Sound c source items (k + 1) (step c source s ()).1 := by
  have rest : items.drop k = .stray :: items.drop (k + 1) := by
    obtain ⟨lt, eq⟩ := List.getElem?_eq_some_iff.mp here
    rw [List.drop_eq_getElem_cons lt, eq]
  have front : unread s.dec s.mem (InPlace.total source) =
      0 :: bytes c.variant (items.drop (k + 1)) := by
    rw [h.unread, rest]
    rfl
  have split : ∃ a tail, (InPlace.total source).drop s.dec.curr = a :: tail ∧ s.mem a = 0 ∧
      tail.map s.mem = bytes c.variant (items.drop (k + 1)) := by
    unfold unread at front
    cases e : (InPlace.total source).drop s.dec.curr with
    | nil =>
        rw [e] at front
        cases front
    | cons a tail =>
        rw [e] at front
        obtain ⟨zero, left⟩ := List.cons.inj front
        exact ⟨a, tail, rfl, zero, left⟩
  obtain ⟨a, tail, drop, zero, left⟩ := split
  have ahead : InPlace.ZeroAhead s.mem (InPlace.total source) s.dec := by
    refine ⟨by rw [h.closed], a, ?_, zero⟩
    have := congrArg List.head? drop
    rwa [List.head?_drop] at this
  have lt : s.dec.curr < (InPlace.total source).length := by
    obtain ⟨_, b, at_, _⟩ := id ahead
    exact (List.getElem?_eq_some_iff.mp at_).1
  have nothing := clean ahead
  have all : source.length ≠ 0 := by
    intro none
    rw [List.length_eq_zero_iff.mp none] at lt
    exact absurd lt (Nat.not_lt_zero _)
  have gap := target_gap h.ready source source.length
  have post : gapAt s.dec source source.length = s.dec.curr := by
    unfold gapAt
    omega
  have viewed := InPlace.view_all source
  have msg := h.ready.msg
  rcases InPlace.decode_kept (v := c.variant) (m := s.mem) h.ready.order msg source source.length
      (fun _ => by rw [viewed]; exact h.ready.inside) with ⟨_, _, call⟩ | ⟨idle | clean, _⟩
  · rw [post] at call
    have answer := InPlace.decoder_other c call nofun
    simp only [step, answer]
    have behind : (InPlace.total source).drop (s.dec.curr + 1) = tail := by
      rw [← List.drop_drop, drop]
      rfl
    refine ⟨⟨?_, lt, .inl rfl⟩, h.closed, ?_, ?_, ?_⟩
    · simp only [opened?]
      omega
    · have fresh := target_seen h.ready source source.length
      rw [h.seen] at fresh
      simp only [seen, opened?, Option.getD_none]
      omega
    · simp only [unread, behind]
      exact left
    · simp only
      rw [h.delivered, messages_take_succ here]
      simp [Item.message]
  · exact absurd idle.1 all
  · rw [viewed] at clean
    exact absurd ahead clean

/-- A frame is delivered, whatever follows it. -/
theorem step_frame (regular : c.variant = .regular) (nodup : (InPlace.total source).Nodup)
    (h : Sound c source items k s) {f : Frame} (here : items[k]? = some (.frame f))
    (ok : f.Ok c) : Sound c source items (k + 1) (step c source s ()).1 := by
  have rest : items.drop k = .frame f :: items.drop (k + 1) := by
    obtain ⟨lt, eq⟩ := List.getElem?_eq_some_iff.mp here
    rw [List.drop_eq_getElem_cons lt, eq]
  obtain ⟨b, l, eq, nonzero, decodes⟩ := walk_frame ok (bytes c.variant (items.drop (k + 1)))
  have front : unread s.dec s.mem (InPlace.total source) =
      b :: (l ++ bytes c.variant (items.drop (k + 1))) := by
    rw [h.unread, rest, ← List.cons_append, ← eq]
    rfl
  have all : source.length ≠ 0 := by
    intro none
    rw [List.length_eq_zero_iff.mp none] at front
    simp [unread, InPlace.total] at front
  have space : need c.variant b.toNat 0 (l ++ bytes c.variant (items.drop (k + 1))) ≤
      gapAt s.dec source source.length + 1 := by
    have := need_regular b.toNat 0 (l ++ bytes c.variant (items.drop (k + 1))) b.toNat_lt
    rw [regular]
    rw [regular] at this
    omega
  obtain ⟨R, scanned, complete⟩ : ∃ R, scanAt c.variant s.dec.ctx
      (gapAt s.dec source source.length) (unread s.dec s.mem (InPlace.total source)) = some R ∧
        R.complete c = some (f.message, bytes c.variant (items.drop (k + 1))) := by
    refine ⟨_, by rw [front, h.closed]; simp [scanAt, nonzero]; rfl, ?_⟩
    rw [scan_eq_walk _ _ _ _ space]
    exact decodes
  have call := decoder_answer c nodup h.ready all (InPlace.view_all source) scanned
  obtain ⟨short, suffix⟩ := complete_parts scanned complete
  obtain ⟨fits, read, left⟩ := unread_scatter nodup h.ready source source.length scanned short
    suffix
  have fresh := target_seen h.ready source source.length
  rw [h.seen] at fresh
  have window := Mem.map_scatter_window s.mem nodup f.message
    (show (target s.dec source source.length).1 + 0 + f.message.length ≤ _ by omega)
  simp only [answer, complete] at call
  simp only [step, call]
  rw [fresh] at fits left ⊢
  simp only [Nat.add_zero, Nat.zero_add, List.take_zero, List.map_nil, List.nil_append]
    at fits left window ⊢
  refine ⟨⟨?_, Nat.sub_le _ _, .inr rfl⟩, rfl, ?_, ?_, ?_⟩
  · simp only
    omega
  · simp [seen]
  · exact left
  · rw [window, h.delivered, messages_take_succ here]
    rfl

/-- A call takes one item, unless it meets a stray zero behind decoded bytes. -/
theorem step_sound (regular : c.variant = .regular) (nodup : (InPlace.total source).Nodup)
    (all : source.length ≠ 0) (ok : ∀ f, Item.frame f ∈ items → f.Ok c)
    (h : Sound c source items k s) (clean : items[k]? = some .stray → Clean source s ()) :
    Sound c source items (k + 1) (step c source s ()).1 := by
  cases here : items[k]? with
  | none => exact step_end h all (List.drop_eq_nil_of_le (List.getElem?_eq_none_iff.mp here))
  | some item =>
      cases item with
      | stray => exact step_stray h here (clean here)
      | frame f => exact step_frame regular nodup h here (ok f (List.mem_of_getElem? here))

end Step

section Runs

variable {c : Codec} {source : List Iovec} {items : List Item}

theorem run_sound (regular : c.variant = .regular) (nodup : (InPlace.total source).Nodup)
    (all : source.length ≠ 0) (ok : ∀ f, Item.frame f ∈ items → f.Ok c) (n : Nat) {k : Nat}
    {s : Session} (h : Sound c source items k s)
    (clean : Item.stray ∉ items ∨
      (machine c source).Meets (Clean source) s (List.replicate n ())) :
    Sound c source items (k + n) ((machine c source).after s (List.replicate n ())) := by
  induction n generalizing k s with
  | zero => exact h
  | succ n ih =>
      have first : items[k]? = some .stray → Clean source s () := by
        intro stray
        rcases clean with none | meets
        · exact absurd (List.mem_of_getElem? stray) none
        · exact meets.1
      have next := ih (step_sound regular nodup all ok h first)
        (clean.imp_right fun meets => meets.2)
      rw [Nat.add_assoc, Nat.add_comm 1 n] at next
      exact next

/-- Where every stray zero is met before anything was decoded, the calls deliver the
    messages of the stream without the zeros. -/
theorem delivers_past_zeros (regular : c.variant = .regular) (items : List Item)
    (m m' : Mem Byte) (source' : List Iovec) (ok : ∀ f, Item.frame f ∈ items → f.Ok c)
    (nodup : (InPlace.total source).Nodup) (nodup' : (InPlace.total source').Nodup)
    (holds : (InPlace.total source).map m = bytes c.variant items)
    (holds' : (InPlace.total source').map m' = bytes c.variant (plain items))
    (some : source.length ≠ 0) (some' : source'.length ≠ 0) (n : Nat)
    (enough : items.length ≤ n)
    (clean : (machine c source).Meets (Clean source) (.start m) (List.replicate n ())) :
    ((machine c source).after (.start m) (List.replicate n ())).delivered =
      ((machine c source').after (.start m') (List.replicate n ())).delivered := by
  have dirty := run_sound regular nodup some ok n (sound_start m holds) (.inr clean)
  have ok' : ∀ f, Item.frame f ∈ plain items → f.Ok c :=
    fun f inside => ok f (List.mem_of_mem_filter inside)
  have tidy := run_sound regular nodup' some' ok' n (sound_start m' holds')
    (.inl (stray_notMem_plain items))
  have shorter := length_plain items
  rw [dirty.delivered, tidy.delivered, List.take_of_length_le (by omega),
    List.take_of_length_le (by omega), messages_plain]

end Runs

/-- Two frames of one byte with a second zero between them. -/
def twoFrames : List Item := [.frame ⟨[], [7], none⟩, .stray, .frame ⟨[], [9], none⟩]

def twoFramesMem : Mem Byte := fun i =>
  if i = 16 ∨ i = 20 then 2 else if i = 17 then 7 else if i = 21 then 9 else 0

/-- Zeros in front of the first message on an aligned source. -/
def leadingZeros : List Item := [.stray, .stray, .frame ⟨[], [7], none⟩]

def leadingZerosMem : Mem Byte := fun i => if i = 18 then 2 else if i = 19 then 7 else 0

def plainMem : Mem Byte := fun i => if i = 16 then 2 else if i = 17 then 7 else 0

theorem delivers_past_leading_zeros :
    ((machine .cobs [⟨16, 5⟩]).after (.start leadingZerosMem) (List.replicate 3 ())).delivered =
      ((machine .cobs [⟨16, 3⟩]).after (.start plainMem) (List.replicate 3 ())).delivered := by
  have good : (⟨[], [7], none⟩ : Frame).Ok .cobs := ⟨by simp, by decide, by decide⟩
  apply delivers_past_zeros rfl leadingZeros leadingZerosMem plainMem [⟨16, 3⟩]
  · intro f inside
    simp only [leadingZeros, List.mem_cons, Item.frame.injEq, reduceCtorEq, List.not_mem_nil,
      or_false, false_or] at inside
    rw [inside]
    exact good
  · decide
  · decide
  · decide
  · decide
  · decide
  · decide
  · decide
  · refine ⟨fun _ => by decide, fun _ => by decide, ?_, trivial⟩
    rintro ⟨_, a, at_, zero⟩
    obtain rfl : 18 = a := by
      have here : (InPlace.total [⟨16, 5⟩])[((machine .cobs [⟨16, 5⟩]).after
          (.start leadingZerosMem) [(), ()]).dec.curr]? = some 18 := by decide
      exact Option.some.inj (here.symm.trans at_)
    exact absurd zero (by decide)

/-- A decoder whose read position is in front of the decoded bytes is stuck. -/
theorem stuck_behind (c : Codec) (source : List Iovec) {s : Session}
    (behind : s.dec.curr < s.dec.pos + s.dec.len) (is : List Unit) :
    (machine c source).after s is = s := by
  have refused : decode c.variant s.dec s.mem (some source) source.length =
      (s.dec, s.mem, .error .badArgument) := by
    simp only [decode]
    rw [if_pos (.inl behind)]
  have call : c.decoder s.dec s.mem (some source) source.length =
      (s.dec, s.mem, .error .badArgument) := by
    unfold Codec.decoder
    split
    · simp only [decodeR, refused]
    · exact refused
  induction is with
  | nil => rfl
  | cons i is ih =>
      have stay : ((machine c source).step s i).1 = s := by
        simp only [machine, step, call]
      rw [Machine.after, stay, ih]

/-- The message behind the second zero is never delivered, however often the decoder is
    called. -/
theorem message_lost_behind_zero :
    (InPlace.total [⟨16, 7⟩]).map twoFramesMem = bytes .regular twoFrames ∧
      messages twoFrames = [[7], [9]] ∧
      ∀ k, ((machine .cobs [⟨16, 7⟩]).after (.start twoFramesMem)
        (List.replicate k ())).delivered ≠ [[7], [9]] := by
  refine ⟨by decide, by decide, ?_⟩
  intro k
  have early : ∀ j, j ≤ 3 → ((machine .cobs [⟨16, 7⟩]).after (.start twoFramesMem)
      (List.replicate j ())).delivered ≠ [[7], [9]] := by decide
  by_cases le : k ≤ 3
  · exact early k le
  · obtain ⟨j, rfl⟩ := Nat.exists_eq_add_of_le (Nat.le_of_not_le le)
    rw [List.replicate_add, Machine.after_append, stuck_behind]
    · exact early 3 (Nat.le_refl 3)
    · decide

end Mpt.Cobs.Resync
