import Mpt.Array.Coding
import Mpt.Queue.Transparent
import Mpt.Stream.Push

/-! # One frame for one message

The write queue holds finished frames and what is encoded of a message.  Each push
adds its data to the message, and the end of the message makes it a frame.  A part
without data would end the message before.
-/

namespace Mpt

open Cobs

namespace Cobs

variable {c : Codec}

/-- A decoder finds one message in the frame and reads all of it, when there is enough
    space before. -/
def Decodes (c : Codec) (frame msg : List Byte) : Prop :=
  ∀ (m : Mem Byte) (base gap : Nat), m.read (base + gap) frame.length = frame →
    needAt c.variant 0 frame ≤ gapAt ⟨0, gap, 0, 0, none⟩ [⟨base, gap + frame.length⟩] 1 →
    ∃ dec m', c.decoder ⟨0, gap, 0, 0, none⟩ m (some [⟨base, gap + frame.length⟩]) 1 =
        (dec, m', .ok 1) ∧
      dec.curr = gap + frame.length ∧ m'.read (base + dec.pos) (dec.msg.getD 0) = msg

theorem decodes_frame {f : Frame} (ok : f.Ok c) : Decodes c (f.bytes c.variant) f.message := by
  intro m base gap stored enough
  have ready : Ready ⟨0, gap, 0, 0, none⟩ (addresses base (gap + (f.bytes c.variant).length)) :=
    ⟨Nat.zero_le _, by simp, .inl rfl⟩
  have unread_eq : unread ⟨0, gap, 0, 0, none⟩ m
      (addresses base (gap + (f.bytes c.variant).length)) = f.bytes c.variant := by
    rw [unread, drop_addresses _ _ _ (Nat.le_add_right _ _), map_addresses,
      Nat.add_sub_cancel_left]
    exact stored
  have tracks : Tracks c ⟨0, gap, 0, 0, none⟩ m
      (addresses base (gap + (f.bytes c.variant).length)) [] [f] := by
    refine ⟨ready, fun some => absurd rfl some, ?_⟩
    rw [unread_eq]
    have between := Pending.between (c := c) [f]
    simpa [part, stream] using between
  obtain ⟨dec, m', ret, call, _, outcome⟩ :=
    decoder_outcome (fun g mem => by rw [List.mem_singleton.mp mem]; exact ok)
      (nodup_addresses base (gap + (f.bytes c.variant).length)) tracks (show 1 ≠ 0 by decide)
      (show (sourceParts [⟨base, gap + (f.bytes c.variant).length⟩] 1).bytes = _ by
        simp [sourceParts, Message.bytes])
  rcases outcome.settled (by rw [unread_eq]; exact enough) with
    ⟨rfl, g, fs, eq, tracks', isSome, message, _⟩ | ⟨_, _, _, _, waits⟩
  · obtain ⟨rfl, rfl⟩ := List.cons.inj eq
    refine ⟨dec, m', call, ?_, ?_⟩
    · have rest := tracks'.pending.stream_eq (tracks'.closed (by simp [isSome]))
      have size := congrArg List.length rest
      have inside := tracks'.ready.inside
      rw [length_addresses] at inside
      simp [unread, stream] at size
      omega
    · rw [← message]
      exact Heap.Coding.reported_eq tracks'.ready isSome
  · exact absurd (waits f [] rfl) (Nat.not_lt_zero _)

theorem nonzero_of_toNat {b : Byte} (pos : 0 < b.toNat) : b ≠ 0 := by
  rintro rfl
  exact absurd pos (by decide)

theorem zero_not_mem_encoded {v : Variant} {bs : List Block} (ok : ∀ b ∈ bs, b.Ok v) :
    (0 : Byte) ∉ encoded v bs := by
  induction bs with
  | nil => simp
  | cons b bs ih =>
      have here := ok b (by simp)
      have rest := ih fun b' mem => ok b' (by simp [mem])
      have code : UInt8.ofNat (b.code v) ≠ 0 := by
        apply nonzero_of_toNat
        rw [toNat_code here]
        exact here.code_pos
      rw [encoded_cons, List.mem_append, Block.bytes, List.mem_cons]
      rintro ((zero | zero) | zero)
      · exact code zero.symm
      · exact here.nonzero zero
      · exact rest zero

/-- The delimiter of a frame is its only zero. -/
theorem zero_not_mem_body {f : Frame} (ok : f.Ok c) : (0 : Byte) ∉ f.body c.variant := by
  have high := c.variant.maxlen_le
  have size := ok.size
  have code : f.tail.getD (UInt8.ofNat (f.last.length + 1)) ≠ 0 := by
    apply nonzero_of_toNat
    cases tail : f.tail with
    | none =>
        simp only [tail] at size
        simp only [Option.getD_none, UInt8.toNat_ofNat']
        omega
    | some e =>
        simp only [tail] at size
        rw [Option.getD_some]
        omega
  rw [Frame.body, List.mem_append, List.mem_cons]
  rintro (zero | zero | zero)
  · exact zero_not_mem_encoded ok.blocks zero
  · exact code zero.symm
  · exact ok.nonzero zero

theorem closing_eq {room : Nat} {o : Option (List Byte)} {out : List Byte}
    (closes : closing c room o = some out) : out = closed c.variant c.tail (o.getD []) ++ [0] := by
  unfold closing at closes
  cases o with
  | none =>
      simp only at closes
      split at closes
      · cases closes
      · obtain rfl := Option.some.inj closes
        simp [closed, Inline, opened]
  | some o =>
      simp only at closes
      split at closes
      · cases closes
      · exact (Option.some.inj closes).symm

/-- With space for any block something is stored. -/
theorem Next.roomy {room : Nat} {o o' : Option (List Byte)} {src add : List Byte}
    {ret : Except Error Nat} (next : Next c room o src add o' ret)
    (short : Short c.variant (o.getD [])) (space : 256 ≤ room) : ∃ n, ret = .ok n := by
  have size := short.size
  have high := c.variant.maxlen_le
  cases next with
  | full _ noRoom => omega
  | data => exact ⟨_, rfl⟩
  | stuck noRoom =>
      unfold closing at noRoom
      cases o with
      | none =>
          simp only at noRoom
          rw [if_neg (by omega)] at noRoom
          cases noRoom
      | some o =>
          simp only [Option.getD_some] at size noRoom
          rw [if_neg (by omega)] at noRoom
          cases noRoom
  | close => exact ⟨_, rfl⟩

end Cobs

namespace EncodeQueue

/-- A queue without storage. -/
structure Bare (qu : EncodeQueue) : Prop where
  base : qu.data.base = 0
  max : qu.data.max = 0
  off : qu.data.off = 0
  len : qu.data.len = 0
  done : qu.state.done = 0
  scratch : qu.state.scratch = 0

/-- The content is finished bytes and an open block; without storage there are none. -/
def Stored (v : Variant) (qu : EncodeQueue) (fin : List Byte) (o : Option (List Byte)) : Prop :=
  Coded v qu fin o ∨ qu.Bare ∧ fin = [] ∧ o = none

variable {c : Codec} {qu : EncodeQueue} {fin src : List Byte} {o : Option (List Byte)}

theorem Stored.short (h : Stored c.variant qu fin o) : Short c.variant (o.getD []) := by
  rcases h with coded | ⟨_, _, rfl⟩
  · exact coded.short
  · exact short_nil c.variant

/-- Without storage nothing can be stored. -/
theorem bare_push (bare : qu.Bare) (src : List Byte) :
    qu.push (some c.encoder) (.bytes src) = (qu, some (.error .missingBuffer)) := by
  obtain ⟨⟨mem, base, len, max, off⟩, ⟨ctx, done, scratch⟩⟩ := qu
  obtain ⟨rfl, rfl, rfl, rfl, rfl, rfl⟩ := bare
  have regular : ∀ src, encode c.variant ⟨ctx, 0, 0⟩ mem (some ⟨0, 0⟩) src =
      (⟨ctx, 0, 0⟩, mem, .error .missingBuffer) := by
    intro src
    simp [encode]
  have call : c.encoder ⟨ctx, 0, 0⟩ mem (some ⟨0, 0⟩) (source src) =
      (⟨ctx, 0, 0⟩, mem, .error .missingBuffer) := by
    unfold Codec.encoder
    split
    · cases found : source src with
      | none =>
          simp only [encodeR, if_true]
          exact regular none
      | some data =>
          simp only [encodeR]
          exact regular (some data)
    · exact regular _
  unfold push
  simp only [source_eq, if_true, encodeIn, call]
  simp [settle]

/-- A push into a queue, with storage or without. -/
theorem stored_push (h : Stored c.variant qu fin o) (clean : Clean c qu src) :
    ∃ qu' add o' ret, qu.push (some c.encoder) (.bytes src) = (qu', some ret) ∧
      Next c (qu.data.max - qu.state.done) o src add o' ret ∧
      Stored c.variant qu' (fin ++ add) o' := by
  rcases h with coded | ⟨bare, rfl, rfl⟩
  · obtain ⟨qu', add, o', ret, call, pushes⟩ := push_clean coded clean
    exact ⟨qu', add, o', ret, call, pushes.next, .inl pushes.coded⟩
  · have full : Full c (qu.data.max - qu.state.done) none src := by
      rw [bare.max, Nat.zero_sub]
      unfold Full
      split
      · rfl
      · exact Nat.zero_le _
    exact ⟨qu, [], none, _, bare_push bare src, full.next, .inr ⟨bare, rfl, rfl⟩⟩

/-- Space was made for any block. -/
theorem stored_prepare (h : Stored c.variant qu fin o) (f : Fresh) :
    ∃ data left, qu.data.prepare (some f) 256 = (data, left) ∧ left ≠ 0 ∧
      Stored c.variant ⟨data, qu.state⟩ fin o ∧ 256 ≤ data.max - data.len := by
  have small : 2 * 256 ≤ sizeMax := by decide
  rcases h with coded | ⟨bare, rfl, rfl⟩
  · obtain ⟨data, left, call, some, valid, base, content, _, room⟩ :=
      Queue.prepare_spec coded.valid (.inl coded.base) f (by decide) small
    refine ⟨data, left, call, some, .inl ⟨valid, base, coded.done, coded.scratch, ?_, coded.short⟩,
      room⟩
    rw [content, coded.content]
  · have valid : qu.data.Valid := ⟨Nat.le_of_eq (by rw [bare.off, bare.max]),
      Nat.le_of_eq (by rw [bare.len, bare.max])⟩
    obtain ⟨data, left, call, some, valid, base, content, _, room⟩ :=
      Queue.prepare_spec valid (.inr bare.max) f (by decide) small
    refine ⟨data, left, call, some, .inl ⟨valid, base, bare.done, bare.scratch, ?_,
      short_nil c.variant⟩, room⟩
    rw [content]
    apply List.eq_nil_of_length_eq_zero
    rw [Queue.length_content, bare.len]

/-- The end of a message is asked for with a null pointer. -/
theorem push_null (enc : Encoder) (qu : EncodeQueue) :
    qu.push (some enc) (.null 0) = qu.push (some enc) (.bytes []) := by
  unfold push pushLower
  simp only [Data.len, List.length_nil, Nat.not_lt_zero, if_true, if_false]

end EncodeQueue

namespace Stream

/-- The stream encodes into a queue that can grow. -/
structure Growable (c : Codec) (s : Stream) : Prop where
  enc : s.enc = some c.encoder
  writeBuf : s.writeBuf = true
  writeMap : s.writeMap = false

/-- Behind the finished bytes `fin` the message `msg` is encoded as far as it goes. -/
def Holding (c : Codec) (s : Stream) (fin msg : List Byte) : Prop :=
  ∃ bs o, EncodeQueue.Stored c.variant s.wd (fin ++ encoded c.variant bs) o ∧
    (∀ b ∈ bs, b.Ok c.variant) ∧ decoded bs ++ o.getD [] = msg

/-- The message `msg` was ended. -/
def Framed (c : Codec) (s : Stream) (fin msg : List Byte) : Prop :=
  ∃ f : Frame, f.Ok c ∧ f.message = msg ∧
    EncodeQueue.Stored c.variant s.wd (fin ++ f.bytes c.variant) none

/-- There is space for any block. -/
def Roomy (s : Stream) : Prop := 256 ≤ s.wd.data.max - s.wd.data.len

instance (s : Stream) : Decidable s.Roomy := inferInstanceAs (Decidable (_ ≤ _))

/-- Every push of the data into the queue meets the condition there. -/
def CleanRun (memory : Memory) (c : Codec) : (rounds : Nat) → Stream → List Byte → Prop
  | 0, _, _ => True
  | rounds + 1, s, src =>
      EncodeQueue.Clean c s.wd src ∧
        match s.round memory (.bytes src) with
        | (s, some (.pushed n)) =>
            n < src.length → CleanRun memory c rounds { s with mesgActive := true } (src.drop n)
        | (s, some .again) => CleanRun memory c rounds s src
        | _ => True

/-- The same for one part after the other. -/
def CleanParts (memory : Memory) (c : Codec) (rounds : Nat) : Stream → List (List Byte) → Prop
  | _, [] => True
  | s, part :: parts =>
      CleanRun memory c rounds s part ∧ ∀ s' n, s.push memory rounds (.bytes part) =
        some (s', .ok n) → CleanParts memory c rounds s' parts

section Rounds

variable {memory : Memory} {c : Codec} {s : Stream} {fin msg src : List Byte}

/-- The data that one round takes. -/
structure Took (c : Codec) (s : Stream) (fin msg src : List Byte) (n : Nat) (s' : Stream) :
    Prop where
  growable : Growable c s'
  pos : src ≠ [] → 0 < n
  le : n ≤ src.length
  holding : src ≠ [] → Holding c s' fin (msg ++ src.take n)
  framed : src = [] → Framed c s' fin msg

/-- One round: data is stored, or the message ends, or there is more space then. -/
theorem round_spec (granted : ∀ k, (memory k).isSome) (grow : Growable c s)
    (h : Holding c s fin msg) (clean : EncodeQueue.Clean c s.wd src) :
    (∃ s' n, s.round memory (.bytes src) = (s', some (.pushed n)) ∧ Took c s fin msg src n s') ∨
      ∃ s', s.round memory (.bytes src) = (s', some .again) ∧ Growable c s' ∧
        Holding c s' fin msg ∧ s'.Roomy ∧ ¬ s.Roomy := by
  obtain ⟨bs, o, stored, blocks, taken⟩ := h
  obtain ⟨wd, add, o', ret, call, next, stored'⟩ := EncodeQueue.stored_push stored clean
  unfold round
  rw [grow.enc, call]
  cases ret with
  | ok n =>
      refine .inl ⟨_, n, rfl, ⟨rfl, grow.writeBuf, grow.writeMap⟩, ?_, ?_, ?_, ?_⟩
      · intro some
        cases next with
        | data cut => exact List.length_pos_iff.mpr cut.some
        | close => exact absurd rfl some
      · cases next with
        | data cut =>
            rw [cut.read, List.length_append]
            exact Nat.le_add_right _ _
        | close => exact Nat.le_refl _
      · intro some
        cases next with
        | @data _ p q cut =>
            obtain ⟨new, _⟩ := split_ok c.variant (o.getD []) p stored.short
            have decodes := decoded_split c.variant (o.getD []) p
            refine ⟨bs ++ (split c.variant (o.getD []) p).1,
              Option.some (split c.variant (o.getD []) p).2, ?_, ?_, ?_⟩
            · rw [encoded_append, ← List.append_assoc]
              exact stored'
            · intro b mem
              rcases List.mem_append.mp mem with old | mem
              · exact blocks b old
              · exact new b mem
            · rw [decoded_append, Option.getD_some, List.append_assoc, decodes, ← List.append_assoc,
                taken, cut.read, List.take_left]
        | close => exact absurd rfl some
      · intro none
        cases next with
        | data cut => exact absurd (List.append_eq_nil_iff.mp (cut.read.symm.trans none)).1 cut.some
        | close closes =>
            refine ⟨Heap.Coding.lastFrame c bs (o.getD []),
              Heap.Coding.lastFrame_ok blocks stored.short, ?_, ?_⟩
            · rw [Heap.Coding.lastFrame_message, taken]
            · rw [Heap.Coding.lastFrame_bytes, ← closing_eq closes, ← List.append_assoc]
              exact stored'
  | error e =>
      obtain ⟨rfl, rfl, rfl⟩ := next.error
      rw [List.append_nil] at stored'
      obtain ⟨f, given⟩ := Option.isSome_iff_exists.mp (granted s.asked)
      obtain ⟨data, left, prepare, some, stored'', room⟩ := EncodeQueue.stored_prepare stored' f
      refine .inr ⟨{ s with wd := ⟨data, wd.state⟩, asked := s.asked + 1 }, ?_,
        ⟨grow.enc, grow.writeBuf, grow.writeMap⟩, ⟨bs, o', stored'', blocks, taken⟩, room, ?_⟩
      · simp only [retry, ne_eq, not_true_eq_false, if_false, grow.writeBuf, grow.writeMap,
          reduceCtorEq, or_self, given, prepare, if_neg some, grow.enc]
      · intro room
        have space : 256 ≤ s.wd.data.max - s.wd.state.done := by
          have len_le : s.wd.state.done ≤ s.wd.data.len := by
            rcases stored with coded | ⟨bare, _⟩
            · rw [coded.len_eq]
              exact Nat.le_add_right _ _
            · rw [bare.done]
              exact Nat.zero_le _
          unfold Roomy at room
          omega
        obtain ⟨n, eq⟩ := next.roomy stored.short space
        cases eq

/-- All data is stored; there are at most two rounds for a byte. -/
theorem pushData_spec (granted : ∀ k, (memory k).isSome) {rounds : Nat} (grow : Growable c s)
    (h : Holding c s fin msg) (some : src ≠ []) (clean : CleanRun memory c rounds s src)
    (enough : 2 * src.length ≤ rounds + if s.Roomy then 1 else 0) (total : Nat) :
    ∃ s', pushData memory rounds s (.bytes src) total = .some (s', .ok (total + src.length)) ∧
      Growable c s' ∧ Holding c s' fin (msg ++ src) := by
  have filled := List.length_pos_iff.mpr some
  induction rounds generalizing s msg src total with
  | zero =>
      split at enough <;> omega
  | succ rounds ih =>
      obtain ⟨first, rest⟩ := clean
      unfold pushData
      rcases round_spec granted grow h first with ⟨s', n, call, took⟩ | ⟨s', call, grow', h', room, tight⟩
      · simp only [call] at rest ⊢
        have pos := took.pos some
        have le := took.le
        have holding := took.holding some
        by_cases last : n = src.length
        · subst last
          rw [if_pos (by simp only [Data.len]; omega)]
          rw [List.take_length] at holding
          exact ⟨_, rfl, ⟨took.growable.enc, took.growable.writeBuf, took.growable.writeMap⟩, holding⟩
        · rw [if_neg (by simp only [Data.len]; omega)]
          have left : (src.drop n).length = src.length - n := List.length_drop
          obtain ⟨s'', run, grow', h'⟩ := ih
            (s := { s' with mesgActive := true })
            ⟨took.growable.enc, took.growable.writeBuf, took.growable.writeMap⟩ holding
            (List.length_pos_iff.mp (by omega)) (rest (by omega)) (by split at enough <;> omega)
            (total + n) (by omega)
          refine ⟨s'', ?_, grow', ?_⟩
          · have size : total + n + (src.drop n).length = total + src.length := by omega
            rw [← size]
            exact run
          · rw [List.append_assoc, List.take_append_drop] at h'
            exact h'
      · simp only [call] at rest ⊢
        rw [if_neg tight] at enough
        exact ih grow' h' some rest (by rw [if_pos room]; omega) total filled

/-- The message becomes a frame, in two rounds at most. -/
theorem pushEnd_spec (granted : ∀ k, (memory k).isSome) {rounds : Nat} (grow : Growable c s)
    (h : Holding c s fin msg) (clean : CleanRun memory c rounds s [])
    (enough : 2 ≤ rounds + if s.Roomy then 1 else 0) :
    ∃ s' n, s.pushEnd memory rounds = some (s', .ok n) ∧ Growable c s' ∧ Framed c s' fin msg := by
  induction rounds generalizing s with
  | zero =>
      split at enough <;> omega
  | succ rounds ih =>
      obtain ⟨first, rest⟩ := clean
      have same : s.round memory (.null 0) = s.round memory (.bytes []) := by
        unfold round
        rw [grow.enc, EncodeQueue.push_null]
      unfold pushEnd
      simp only [grow.enc, same]
      rcases round_spec granted grow h first with ⟨s', n, call, took⟩ | ⟨s', call, grow', h', room, tight⟩
      · simp only [call]
        exact ⟨_, n, rfl, ⟨took.growable.enc, took.growable.writeBuf, took.growable.writeMap⟩,
          took.framed rfl⟩
      · simp only [call] at rest ⊢
        rw [if_neg tight] at enough
        exact ih grow' h' rest (by rw [if_pos room]; omega)

theorem push_data (memory : Memory) (rounds : Nat) (s : Stream) {src : List Byte} (some : src ≠ []) :
    s.push memory rounds (.bytes src) = pushData memory rounds s (.bytes src) 0 := by
  have filled : (Data.bytes src).len ≠ 0 := fun zero => some (List.eq_nil_of_length_eq_zero zero)
  unfold push
  rw [if_neg filled]

/-- Parts with data go on with the message. -/
theorem appendLoop_spec (granted : ∀ k, (memory k).isSome) {rounds : Nat} (grow : Growable c s)
    (h : Holding c s fin msg) {base : List Byte} {cont rest : List (List Byte)}
    (filled : ∀ part ∈ base :: cont, part ≠ [])
    (clean : CleanParts memory c rounds s (base :: cont ++ rest))
    (enough : ∀ part ∈ base :: cont, 2 * part.length ≤ rounds) {steps : Nat}
    (more : cont.length < steps) (total : Nat) :
    ∃ s', appendLoop memory rounds steps s base cont total =
        some (s', .ok (total + (base ++ cont.flatten).length)) ∧
      Growable c s' ∧ Holding c s' fin (msg ++ (base ++ cont.flatten)) ∧
      CleanParts memory c rounds s' rest := by
  induction steps generalizing s msg base cont total with
  | zero => exact absurd more (Nat.not_lt_zero _)
  | succ steps ih =>
      have some := filled base (by simp)
      have long := enough base (by simp)
      obtain ⟨first, later⟩ := clean
      obtain ⟨s', run, grow', h'⟩ := pushData_spec granted grow h some first (by omega) 0
      rw [Nat.zero_add] at run
      rw [← push_data memory rounds s some] at run
      have clean' := later s' base.length run
      unfold appendLoop
      simp only [run, Nat.sub_self, ne_eq, not_true_eq_false, if_false]
      cases cont with
      | nil =>
          refine ⟨s', ?_, grow', ?_, clean'⟩
          · simp
          · simpa using h'
      | cons next cont =>
          obtain ⟨s'', run, grow'', h'', clean''⟩ := ih grow' h'
            (fun part mem => filled part (List.mem_cons_of_mem base mem)) clean'
            (fun part mem => enough part (List.mem_cons_of_mem base mem))
            (by simpa using more) (total + base.length)
          refine ⟨s'', ?_, grow'', ?_, clean''⟩
          · simp only [run, List.flatten_cons, List.length_append, Nat.add_assoc]
          · simpa [List.append_assoc] using h''

end Rounds

/-- No message is in progress. -/
structure Idle (c : Codec) (s : Stream) : Prop extends Growable c s where
  stored : EncodeQueue.Stored c.variant s.wd s.wd.finished none
  inactive : s.mesgActive = false

/-- The parts of a message that may be missing. -/
def partsOf (msg : Option Parts) : List (List Byte) := (msg.map Parts.all).getD []

def bytesOf (msg : Option Parts) : List Byte := (msg.map Parts.bytes).getD []

/-- What a reply pushes, one after the other. -/
def replyParts (id : List Byte) (msg : Option Parts) : List (List Byte) :=
  (if id = [] then [] else [id]) ++ (partsOf msg ++ [[]])

/-- A number of rounds that suffices. -/
def roundsFor (id : List Byte) (msg : Option Parts) : Nat :=
  2 * (id ++ bytesOf msg).length + (partsOf msg).length + 2

section Messages

variable {memory : Memory} {c : Codec} {s : Stream} {fin msg id : List Byte}

theorem length_le_flatten {part : List Byte} {parts : List (List Byte)} (mem : part ∈ parts) :
    part.length ≤ parts.flatten.length := by
  induction parts with
  | nil => cases mem
  | cons p parts ih =>
      rw [List.flatten_cons, List.length_append]
      rcases List.mem_cons.mp mem with rfl | mem
      · exact Nat.le_add_right _ _
      · exact Nat.le_trans (ih mem) (Nat.le_add_left _ _)

theorem append_spec (granted : ∀ k, (memory k).isSome) {rounds : Nat} (grow : Growable c s)
    (h : Holding c s fin msg) {m : Parts} {rest : List (List Byte)}
    (filled : ∀ part ∈ m.all, part ≠ []) (clean : CleanParts memory c rounds s (m.all ++ rest))
    (enough : 2 * m.bytes.length + m.all.length ≤ rounds) :
    ∃ s', s.append memory rounds (some m) = some (s', .ok m.bytes.length) ∧ Growable c s' ∧
      Holding c s' fin (msg ++ m.bytes) ∧ CleanParts memory c rounds s' rest := by
  have size : m.all.length = m.cont.length + 1 := rfl
  have short : ∀ part ∈ m.base :: m.cont, 2 * part.length ≤ rounds := by
    intro part mem
    have le : part.length ≤ m.bytes.length := length_le_flatten mem
    omega
  obtain ⟨s', run, grow', h', clean'⟩ :=
    appendLoop_spec granted grow h filled clean short (show m.cont.length < rounds by omega) 0
  rw [Nat.zero_add] at run
  exact ⟨s', run, grow', h', clean'⟩

theorem replyEnd_spec (granted : ∀ k, (memory k).isSome) {rounds : Nat} (grow : Growable c s)
    (h : Holding c s fin msg) (clean : CleanParts memory c rounds s [[]]) (enough : 2 ≤ rounds)
    (len : Nat) :
    ∃ s', s.replyEnd memory rounds len = some (s', .ok 0) ∧ Framed c s' fin msg := by
  obtain ⟨s', n, run, _, framed⟩ := pushEnd_spec granted grow h clean.1 (by omega)
  refine ⟨s', ?_, framed⟩
  unfold replyEnd push
  simp only [Data.len, if_true, run]

theorem replyMessage_spec (granted : ∀ k, (memory k).isSome) {rounds : Nat} (grow : Growable c s)
    (h : Holding c s fin id) {m : Option Parts} (filled : ∀ part ∈ partsOf m, part ≠ [])
    (clean : CleanParts memory c rounds s (partsOf m ++ [[]]))
    (enough : 2 * (bytesOf m).length + (partsOf m).length + 2 ≤ rounds) (len : Nat) :
    ∃ s', s.replyMessage memory rounds len m = some (s', .ok 0) ∧
      Framed c s' fin (id ++ bytesOf m) := by
  cases m with
  | none =>
      obtain ⟨s', run, framed⟩ := replyEnd_spec granted grow h clean (by omega) len
      exact ⟨s', run, by simpa [bytesOf] using framed⟩
  | some m =>
      have enough' : 2 * m.bytes.length + m.all.length + 2 ≤ rounds := enough
      obtain ⟨s₁, run, grow', h', clean'⟩ := append_spec granted grow h filled clean (by omega)
      obtain ⟨s', run', framed⟩ :=
        replyEnd_spec granted grow' h' clean' (by omega) (len + m.bytes.length)
      refine ⟨s', ?_, framed⟩
      unfold replyMessage
      simp only [run, Nat.lt_irrefl, if_false]
      exact run'

theorem idle_holding (idle : Idle c s) : Holding c s s.wd.finished [] :=
  ⟨[], none, by simpa using idle.stored, by simp, rfl⟩

theorem reply_spec (granted : ∀ k, (memory k).isSome) {rounds : Nat} (idle : Idle c s)
    {m : Option Parts} (filled : ∀ part ∈ partsOf m, part ≠ [])
    (clean : CleanParts memory c rounds s (replyParts id m)) (enough : roundsFor id m ≤ rounds) :
    ∃ s', s.reply memory rounds (.bytes id) m = some (s', .ok 0) ∧
      Framed c s' s.wd.finished (id ++ bytesOf m) := by
  have h := idle_holding idle
  unfold roundsFor at enough
  rw [List.length_append] at enough
  unfold reply
  simp only [idle.inactive, Bool.false_eq_true, if_false]
  by_cases none : id = []
  · subst none
    exact replyMessage_spec granted idle.toGrowable h filled clean (by omega) 0
  · unfold replyParts at clean
    rw [if_neg none] at clean
    obtain ⟨first, later⟩ := clean
    obtain ⟨s₁, run, grow', h'⟩ := pushData_spec granted idle.toGrowable h none first (by omega) 0
    rw [Nat.zero_add, ← push_data memory rounds s none] at run
    have some : (Data.bytes id).len ≠ 0 := fun zero => none (List.eq_nil_of_length_eq_zero zero)
    rw [if_neg some, run]
    rw [List.nil_append] at h'
    exact replyMessage_spec granted grow' h' filled (later s₁ _ run) (by omega) _

theorem stored_content {v : Variant} {qu : EncodeQueue} {o : Option (List Byte)}
    (h : EncodeQueue.Stored v qu fin o) :
    qu.data.content = fin ++ progress o ∧ qu.state.done = fin.length ∧
      qu.data.len = qu.state.done + qu.state.scratch ∧ qu.state.scratch = (progress o).length := by
  rcases h with coded | ⟨bare, rfl, rfl⟩
  · exact ⟨coded.content, coded.done, coded.len_eq, coded.scratch⟩
  · refine ⟨?_, bare.done, by rw [bare.len, bare.done, bare.scratch], bare.scratch⟩
    apply List.eq_nil_of_length_eq_zero
    rw [Queue.length_content, bare.len]

theorem zero_not_mem_progress {v : Variant} {o : Option (List Byte)} (short : Short v (o.getD [])) :
    (0 : Byte) ∉ progress o := by
  cases o with
  | none => simp [progress]
  | some o =>
      have size := short.size
      have high := v.maxlen_le
      simp only [Option.getD_some] at size
      have code : UInt8.ofNat (o.length + 1) ≠ 0 := by
        apply nonzero_of_toNat
        simp only [UInt8.toNat_ofNat']
        omega
      rw [progress, opened, List.mem_cons]
      rintro (zero | zero)
      · exact code zero.symm
      · exact short.nonzero zero

theorem holding_adds (idle : Idle c s) {s' : Stream} (h : Holding c s' s.wd.finished msg) :
    ∃ added, s'.wd.data.content = s.wd.data.content ++ added ∧ (0 : Byte) ∉ added := by
  obtain ⟨bs, o, stored, blocks, _⟩ := h
  have before := (stored_content idle.stored).1
  refine ⟨encoded c.variant bs ++ progress o, ?_, ?_⟩
  · rw [(stored_content stored).1, before, progress, List.append_nil, List.append_assoc]
  · rw [List.mem_append]
    rintro (zero | zero)
    · exact zero_not_mem_encoded blocks zero
    · exact zero_not_mem_progress stored.short zero

/-- With data in every part of the message, and pushes into the queue that meet the
    condition there, a reply succeeds and adds one frame, which decodes to the
    identifier and the message.  To append a message alone adds no delimiter. -/
theorem reply_adds_frame (c : Codec) (granted : ∀ k, (memory k).isSome) (idle : Idle c s)
    (id : List Byte) (m : Option Parts) (filled : ∀ part ∈ partsOf m, part ≠ []) {rounds : Nat}
    (enough : roundsFor id m ≤ rounds) :
    (CleanParts memory c rounds s (replyParts id m) →
      ∃ s' body, s.reply memory rounds (.bytes id) m = some (s', .ok 0) ∧
        s'.wd.data.content = s.wd.data.content ++ (body ++ [0]) ∧ (0 : Byte) ∉ body ∧
        s'.wd.state.done = s'.wd.data.len ∧ Decodes c (body ++ [0]) (id ++ bytesOf m)) ∧
    (CleanParts memory c rounds s (partsOf m) →
      ∃ s' added, s.append memory rounds m = some (s', .ok (bytesOf m).length) ∧
        s'.wd.data.content = s.wd.data.content ++ added ∧ (0 : Byte) ∉ added) := by
  constructor
  · intro clean
    obtain ⟨s', run, f, ok, message, stored⟩ := reply_spec granted idle filled clean enough
    have before := (stored_content idle.stored).1
    obtain ⟨content, done, len, scratch⟩ := stored_content stored
    refine ⟨s', f.body c.variant, run, ?_, zero_not_mem_body ok, ?_, ?_⟩
    · rw [content, before, progress, List.append_nil, List.append_nil]
      rfl
    · rw [len, scratch]
      rfl
    · rw [← message]
      exact decodes_frame ok
  · intro clean
    cases m with
    | none => exact ⟨s, [], rfl, by simp, by simp⟩
    | some m =>
        have enough' : 2 * m.bytes.length + m.all.length ≤ rounds := by
          unfold roundsFor at enough
          rw [List.length_append] at enough
          have same : (bytesOf (some m)).length = m.bytes.length := rfl
          have same' : (partsOf (some m)).length = m.all.length := rfl
          omega
        obtain ⟨s', run, _, h, _⟩ := append_spec granted idle.toGrowable (idle_holding idle)
          filled (by rw [List.append_nil]; exact clean) enough'
        rw [List.nil_append] at h
        obtain ⟨added, content, plain⟩ := holding_adds idle h
        exact ⟨s', added, run, content, plain⟩

end Messages

section Sample

variable {memory : Memory} {s : Stream} {src : List Byte} {wd : EncodeQueue}

theorem push_once {rounds : Nat} (some : src ≠ [])
    (call : s.wd.push s.enc (.bytes src) = (wd, .some (.ok src.length))) :
    s.push memory (rounds + 1) (.bytes src) =
      .some ({ s with wd := wd, mesgActive := true }, .ok src.length) := by
  rw [push_data memory _ s some]
  simp only [pushData, round, call, Data.len, Nat.sub_self, if_true, Nat.zero_add]

theorem end_once {rounds : Nat} {enc : Encoder} {src : Data} (none : src.len = 0)
    (isSome : s.enc = some enc)
    (call : s.wd.push (some enc) (.bytes []) = (wd, some (.ok 0))) :
    s.push memory (rounds + 1) src =
      some ({ s with wd := wd, mesgActive := false }, .ok 0) := by
  unfold push
  rw [if_pos none]
  simp only [pushEnd, isSome, round, EncodeQueue.push_null, call]

theorem clean_once {c : Codec} {rounds : Nat} (clean : EncodeQueue.Clean c s.wd src)
    (call : s.wd.push s.enc (.bytes src) = (wd, .some (.ok src.length))) :
    CleanRun memory c (rounds + 1) s src := by
  refine ⟨clean, ?_⟩
  simp only [round, call]
  exact fun lt => absurd lt (Nat.lt_irrefl _)

theorem regular_byte (done room : Nat) (o : Option (List Byte)) (b : Byte)
    (size : (o.getD []).length + 2 ≠ 255) : Regular .cobs done room o [b] := by
  unfold Regular
  rw [if_neg (List.cons_ne_nil _ _)]
  rintro ⟨p, x, q, read, _, full, _⟩
  cases p with
  | nil => exact size full
  | cons a p => exact absurd (List.cons.inj read).2 (by simp)

/-- A queue with 16 bytes of storage, the pushes 7, 8 and the message end. -/
def sampleQueue : EncodeQueue := EncodeQueue.empty (fun _ => 0) 1 16 0

def sampleStream (wd : EncodeQueue) (active : Bool) : Stream :=
  ⟨wd, some Codec.cobs.encoder, active, true, false, none, 0⟩

def sampleMemory : Memory := fun _ => some ⟨fun _ => 0, 1, Nat.one_ne_zero⟩

def pushed (srcs : List (List Byte)) : EncodeQueue :=
  (EncodeQueue.pushing .cobs).after sampleQueue srcs

theorem pushed_idle : Idle .cobs (sampleStream sampleQueue false) :=
  ⟨⟨rfl, rfl, rfl⟩,
    .inl (EncodeQueue.empty_coded _ _ Nat.one_ne_zero (Nat.zero_le _)), rfl⟩

/-- The byte 7 as identifier and 8 as the message meet the condition. -/
theorem sample_clean : CleanParts sampleMemory .cobs 7 (sampleStream sampleQueue false)
    (replyParts [7] (some ⟨[8], []⟩)) := by
  have first : (sampleStream sampleQueue false).push sampleMemory 7 (.bytes [7]) =
      some (sampleStream (pushed [[7]]) true, .ok 1) := push_once (by simp) rfl
  have second : (sampleStream (pushed [[7]]) true).push sampleMemory 7 (.bytes [8]) =
      some (sampleStream (pushed [[7], [8]]) true, .ok 1) := push_once (by simp) rfl
  have ends : EncodeQueue.Clean .cobs (pushed [[7], [8]]) [] := by
    have block : (pushed [[7], [8]]).openBlock = some [7, 8] := by decide
    refine ⟨.inr ?_, fun off => absurd rfl off⟩
    rw [block]
    unfold Regular
    rw [if_pos rfl]
    exact fun tail => absurd tail (by decide)
  refine ⟨clean_once ⟨.inr (regular_byte _ _ _ _ (by decide)), fun off => absurd rfl off⟩ rfl, ?_⟩
  intro s₁ n run
  obtain ⟨rfl, _⟩ := Prod.mk.inj (Option.some.inj (run.symm.trans first))
  refine ⟨clean_once ⟨.inr (regular_byte _ _ _ _ (by decide)), fun off => absurd rfl off⟩ rfl, ?_⟩
  intro s₂ n run
  obtain ⟨rfl, _⟩ := Prod.mk.inj (Option.some.inj (run.symm.trans second))
  exact ⟨clean_once ends rfl, fun _ _ _ => trivial⟩

/-- The byte 7 as identifier, and 8 as the message. -/
theorem sample_reply : ∃ s' body,
    (sampleStream sampleQueue false).reply sampleMemory 7 (.bytes [7]) (some ⟨[8], []⟩) =
        some (s', .ok 0) ∧
      s'.wd.data.content = [] ++ (body ++ [0]) ∧ (0 : Byte) ∉ body ∧
      s'.wd.state.done = s'.wd.data.len ∧ Decodes .cobs (body ++ [0]) [7, 8] := by
  exact (reply_adds_frame .cobs (fun _ => rfl) pushed_idle [7] (some ⟨[8], []⟩)
    (by simp [partsOf, Parts.all]) (by decide)).1 sample_clean

/-- A first part without data ends the message behind the identifier: there are two
    frames. -/
theorem empty_part : ¬ ∀ (c : Codec) (memory : Memory) (s : Stream) (id : List Byte)
    (m : Option Parts) (rounds : Nat) (s' : Stream), (∀ k, (memory k).isSome) → Idle c s →
    s.reply memory rounds (.bytes id) m = some (s', .ok 0) →
      ∃ body, s'.wd.data.content = s.wd.data.content ++ (body ++ [0]) ∧ (0 : Byte) ∉ body := by
  intro all
  have first : (sampleStream sampleQueue false).push sampleMemory 7 (.bytes [7]) =
      some (sampleStream (pushed [[7]]) true, .ok 1) := push_once (by simp) rfl
  have second : (sampleStream (pushed [[7]]) true).push sampleMemory 7 (.bytes []) =
      some (sampleStream (pushed [[7], []]) false, .ok 0) := end_once rfl rfl rfl
  have third : (sampleStream (pushed [[7], []]) false).push sampleMemory 7 (.bytes [8]) =
      some (sampleStream (pushed [[7], [], [8]]) true, .ok 1) := push_once (by simp) rfl
  have last : (sampleStream (pushed [[7], [], [8]]) true).push sampleMemory 7 (.null 0) =
      some (sampleStream (pushed [[7], [], [8], []]) false, .ok 0) := end_once rfl rfl rfl
  have run : (sampleStream sampleQueue false).reply sampleMemory 7 (.bytes [7])
      (some ⟨[], [[8]]⟩) = some (sampleStream (pushed [[7], [], [8], []]) false, .ok 0) := by
    have inactive : (sampleStream sampleQueue false).mesgActive = false := rfl
    simp only [reply, inactive, Bool.false_eq_true, if_false, Data.len, List.length_singleton,
      Nat.one_ne_zero, first, replyMessage, append, appendLoop, second, List.length_nil, Nat.zero_sub,
      ne_eq, not_true_eq_false, third, Nat.sub_self, Nat.add_zero, Nat.zero_add, Parts.bytes,
      List.nil_append, List.flatten_cons, List.flatten_nil, List.append_nil, Nat.lt_irrefl,
      replyEnd, last]
  obtain ⟨body, content, plain⟩ := all .cobs _ _ _ _ _ _ (fun _ => rfl) pushed_idle run
  have bytes : (pushed [[7], [], [8], []]).data.content = [2, 7, 0] ++ ([2, 8] ++ [0]) := by decide
  have whole : [2, 7, 0, 2, 8] = body := by
    have same : [2, 7, 0] ++ ([2, 8] ++ [0]) = [] ++ (body ++ [0]) := bytes.symm.trans content
    have ends : [2, 7, 0, 2, 8] ++ [0] = body ++ [0] := by simpa using same
    exact List.append_cancel_right ends
  exact plain (whole ▸ by decide)

end Sample

end Stream

end Mpt
