import Mpt.Queue.Encoding

/-! # The encoder does not see the start of the ring

Where the content starts makes no difference, as long as a push meets a condition:
what it adds is found in one part of the storage or fits the copy.  Otherwise the
positions of several parts are mixed up.
-/

namespace Mpt

open Cobs

namespace Cobs

variable {c : Codec} {room room' : Nat} {o o' : Option (List Byte)} {src add : List Byte}

/-- All data that is taken with some room is all there is. -/
def TakesAll (c : Codec) (room : Nat) (o : Option (List Byte)) (src : List Byte) : Prop :=
  ∀ p q, Cut c.variant room (o.getD []) src p q → q = []

/-- Before the open block the copy holds nothing: what fits is all there is, or the block
    grows to the end of the storage. -/
def Stays (c : Codec) (room : Nat) (o : Option (List Byte)) (src : List Byte) : Prop :=
  ∀ p q, Cut c.variant room (o.getD []) src p q →
    q = [] ∨ (split c.variant (o.getD []) p).1 = []

theorem Regular.first {done : Nat} (regular : Regular c done room o src) :
    Regular c 0 room o src := by
  unfold Regular at *
  by_cases finish : src = []
  · simp only [finish, if_true] at regular ⊢
    cases o with
    | none => exact .inl trivial
    | some o => exact regular
  · simp only [finish, if_false] at regular ⊢
    exact regular

theorem Next.more {n : Nat} (next : Next c room o src add o' (.ok n)) (all : TakesAll c room o src)
    (le : room ≤ room') : Next c room' o src add o' (.ok n) ∧ n = src.length := by
  cases next with
  | data cut =>
      obtain rfl := all _ _ cut
      exact ⟨.data (cut.more le), by rw [cut.read, List.append_nil]⟩
  | close closes => exact ⟨.close (closing_more closes le), rfl⟩

end Cobs

namespace EncodeQueue

/-- What one push adds, with all of the storage behind the finished bytes as room. -/
structure Pushes (c : Codec) (qu qu' : EncodeQueue) (fin : List Byte) (o : Option (List Byte))
    (src add : List Byte) (o' : Option (List Byte)) (ret : Except Error Nat) : Prop where
  next : Next c (qu.data.max - qu.state.done) o src add o' ret
  coded : Coded c.variant qu' (fin ++ add) o'
  max : qu'.data.max = qu.data.max

/-- The encoder can work with this room, if it has anything to do. -/
def Works (c : Codec) (done room : Nat) (o : Option (List Byte)) (src : List Byte) : Prop :=
  Full c room o src ∨ Regular c done room o src

/-- The room of the copy for an open block that starts in the lower part. -/
def copyRoom (qu : EncodeQueue) : Nat := min (qu.data.max - qu.state.done) 256

/-- The data as `mpt_queue_push` hands it to the encoder. -/
theorem source_eq (src : List Byte) :
    (if (Data.bytes src).len = 0 then none else some (Data.bytes src)) = source src := by
  cases src with
  | nil => rfl
  | cons a src => simp [Data.len, source]

theorem settle_eq {v : Variant} {qu : EncodeQueue} {fin : List Byte} {o : Option (List Byte)}
    (h : Coded v qu.settled fin o) (ret : Except Error Nat) :
    qu.settle ret = (qu.settled, some ret) := by
  have within : qu.state.done + qu.state.scratch ≤ qu.data.max := h.within
  simp only [settle, settled]
  rw [if_neg (by omega)]

namespace Coded

variable {c : Codec} {qu : EncodeQueue} {fin src : List Byte} {o : Option (List Byte)}

/-- All of the storage, if it starts with the content. -/
theorem whole (h : Coded c.variant qu fin o) (start : qu.data.off = 0)
    (works : Works c qu.state.done (qu.data.max - qu.state.done) o src) :
    ∃ qu' add o' ret,
      qu.encodeIn c.encoder qu.state.done ⟨qu.data.base, qu.data.max⟩ (source src) = (qu', ret) ∧
      Pushes c qu qu'.settled fin o src add o' ret ∧ qu'.data.off = 0 ∧
      ∀ e, ret = .error e → qu'.settled = qu := by
  have within := h.within
  rcases works with full | regular
  · have call := h.window_full 0 qu.data.max qu.data.base h.base (Nat.zero_le _)
      (by omega) (by rwa [Nat.zero_add])
    refine ⟨qu, [], o, _, call, ⟨full.next, ?_, rfl⟩, start, fun _ _ => h.settled_eq⟩
    rw [h.settled_eq, List.append_nil]
    exact h
  · have window : Window qu.data 0 0 qu.data.max := by
      refine ⟨by omega, by omega, fun i inside => ?_⟩
      rw [start, Nat.mod_eq_of_lt (by omega)]
      omega
    obtain ⟨qu', add, o', ret, call, next, coded, _, data, failed⟩ :=
      h.window_next window (Nat.zero_le _) (by omega) (by rwa [Nat.zero_add])
    rw [Nat.zero_add] at next
    refine ⟨qu', add, o', ret, call, ⟨next, coded, ?_⟩, ?_, fun e eq => ?_⟩
    · simp only [settled]
      rw [data]
    · rw [data]
      exact start
    · have same : qu' = qu := failed e eq
      rw [same, h.settled_eq]

/-- All of the storage, after an alignment. -/
theorem aligned (h : Coded c.variant qu fin o)
    (works : Works c qu.state.done (qu.data.max - qu.state.done) o src) :
    ∃ qu' add o' ret, qu.pushAligned c.encoder (source src) = (qu', ret) ∧
      Pushes c qu qu'.settled fin o src add o' ret := by
  obtain ⟨m, start, eq, _, zero, content⟩ := Queue.align_zero h.valid
  obtain rfl := zero h.base
  have coded : Coded c.variant ⟨qu.data.align 0, qu.state⟩ fin o := by
    refine ⟨⟨?_, ?_⟩, ?_, h.done, h.scratch, ?_, h.short⟩
    · simp only [eq, Nat.zero_le]
    · simp only [eq]
      exact h.valid.len_le
    · simp only [eq]
      exact h.base
    · exact content.trans h.content
  have max : (qu.data.align 0).max = qu.data.max := by rw [eq]
  obtain ⟨qu', add, o', ret, call, pushes, _, _⟩ :=
    coded.whole (by simp only [eq]) (by simp only [max]; exact works)
  refine ⟨qu', add, o', ret, call, ?_, pushes.coded, pushes.max.trans max⟩
  have next := pushes.next
  simp only [max] at next
  exact next

/-- The upper part of the content, if the open block starts with it. -/
theorem upper (h : Coded c.variant qu fin o) (past : qu.data.max - qu.data.off ≤ qu.state.done)
    (works : Full c (qu.data.max - qu.state.done) o src ∨
      qu.state.done = qu.data.max - qu.data.off ∧
        Regular c 0 (qu.data.max - qu.state.done) o src) :
    ∃ qu' add o' ret,
      qu.encodeIn c.encoder (qu.state.done - (qu.data.max - qu.data.off))
        ⟨qu.data.base + (qu.state.done - (qu.data.max - qu.data.off)), qu.data.off⟩ (source src) =
          (qu', ret) ∧
      Pushes c qu (qu'.shifted (qu.data.max - qu.data.off)).settled fin o src add o' ret := by
  have within := h.within
  have off_le := h.valid.off_le
  have size : qu.data.max - qu.data.off + qu.data.off = qu.data.max := Nat.sub_add_cancel off_le
  rcases works with full | ⟨first, regular⟩
  · have call := h.window_full (qu.data.max - qu.data.off) qu.data.off
      (qu.data.base + (qu.state.done - (qu.data.max - qu.data.off)))
      (by have := h.base; omega) past (by omega) (by rwa [size])
    have same : (⟨qu.data, { qu.state with
        done := qu.state.done - (qu.data.max - qu.data.off) }⟩ : EncodeQueue).shifted
          (qu.data.max - qu.data.off) = qu := by
      simp only [shifted, Nat.sub_add_cancel past]
    refine ⟨_, [], o, _, call, full.next, ?_, ?_⟩
    · rw [same, h.settled_eq, List.append_nil]
      exact h
    · rw [same, h.settled_eq]
  · have window : Window qu.data (qu.data.max - qu.data.off) 0 qu.data.off := by
      refine ⟨by omega, by omega, fun i inside => ?_⟩
      have wrapped : qu.data.off + (qu.data.max - qu.data.off + i) = qu.data.max + i := by omega
      rw [wrapped, Nat.add_mod_left, Nat.mod_eq_of_lt (by omega), Nat.zero_add]
    have zero : qu.state.done - (qu.data.max - qu.data.off) = 0 := by omega
    obtain ⟨qu', add, o', ret, call, next, coded, _, data, _⟩ :=
      h.window_next window past (by omega) (by rw [size, zero]; exact regular)
    rw [size] at next
    rw [Nat.add_zero] at call
    refine ⟨qu', add, o', ret, ?_, next, coded, ?_⟩
    · rw [← call]
      rw [zero, Nat.add_zero]
    · simp only [settled, shifted]
      rw [data]

/-- The lower part of the content. -/
theorem lower (h : Coded c.variant qu fin o) (before : qu.state.done < qu.data.max - qu.data.off)
    (fits : qu.state.scratch ≤ qu.data.max - qu.data.off - qu.state.done)
    (works : Works c qu.state.done (qu.data.max - qu.data.off - qu.state.done) o src) :
    ∃ qu' add o' ret,
      qu.encodeIn c.encoder qu.state.done
        ⟨qu.data.base + qu.data.off, qu.data.max - qu.data.off⟩ (source src) = (qu', ret) ∧
      Next c (qu.data.max - qu.data.off - qu.state.done) o src add o' ret ∧
      Coded c.variant qu'.settled (fin ++ add) o' ∧ qu'.data.max = qu.data.max ∧
      ∀ e, ret = .error e → qu' = qu := by
  have off_le := h.valid.off_le
  rcases works with full | regular
  · have call := h.window_full 0 (qu.data.max - qu.data.off)
      (qu.data.base + qu.data.off) (by have := h.base; omega) (Nat.zero_le _) (by omega)
      (by rwa [Nat.zero_add])
    refine ⟨qu, [], o, _, call, full.next, ?_, rfl, fun _ _ => rfl⟩
    rw [h.settled_eq, List.append_nil]
    exact h
  · have window : Window qu.data 0 qu.data.off (qu.data.max - qu.data.off) := by
      refine ⟨by omega, by omega, fun i inside => ?_⟩
      rw [Nat.zero_add, Nat.mod_eq_of_lt (by omega)]
    obtain ⟨qu', add, o', ret, call, next, coded, _, data, failed⟩ :=
      h.window_next window (Nat.zero_le _) (by omega) (by rwa [Nat.zero_add])
    rw [Nat.zero_add] at next
    exact ⟨qu', add, o', ret, call, next, coded, by rw [data], failed⟩

/-- The encoder on a copy of the open block. -/
theorem copied (h : Coded c.variant qu fin o)
    (works : Works c 0 (copyRoom qu) o src) :
    ∃ qu' add o' ret,
      qu.outOfBand c.encoder (source src) = some (qu', ret) ∧
      Next c (copyRoom qu) o src add o' ret ∧
      Coded c.variant qu' (fin ++ add) o' ∧ qu'.data.max = qu.data.max ∧
      ∀ e, ret = .error e → qu' = qu := by
  have within := h.within
  have small := h.scratch_lt
  have done := h.done
  have len_eq := h.len_eq
  have content := h.content
  have block : (qu.data.content.drop qu.state.done).take qu.state.scratch = progress o := by
    rw [content, done, List.drop_left, h.scratch, List.take_length]
  obtain ⟨flags, get⟩ : ∃ flags, qu.data.getRange qu.state.done qu.state.scratch true =
      .ok (progress o, flags) := by
    rcases Queue.getRange_spec h.valid qu.state.done qu.state.scratch with ⟨_, get⟩ | ⟨_, excess, _⟩
    · obtain ⟨flags, get⟩ := get true
      rw [if_pos rfl, block] at get
      exact ⟨flags, get⟩
    · omega
  have scratch : ({ qu.state with done := 0 } : EncodeState).scratch = (progress o).length :=
    h.scratch
  have fits : 0 + qu.state.scratch ≤ copyRoom qu := by
    unfold copyRoom
    omega
  rcases works with full | regular
  · have call := encoder_full c (Mem.write (fun _ => 0) 1 (progress o)) h.short scratch
      Nat.one_ne_zero fits full
    refine ⟨qu, [], o, _, ?_, full.next, by rwa [List.append_nil], rfl, fun _ _ => rfl⟩
    simp only [outOfBand, get]
    rw [copyRoom] at call
    simp only [call, Nat.add_zero]
  · have holds : Holds c.variant { qu.state with done := 0 }
        (Mem.write (fun _ => 0) 1 (progress o)) 1 [] o := by
      refine ⟨rfl, scratch, ?_, h.short⟩
      simp only [Nat.zero_add, List.nil_append]
      rw [h.scratch, Mem.read_write_self]
    obtain ⟨add, o', info', buf', ret, call, next, holds, size, _, failed⟩ :=
      encoder_next c holds Nat.one_ne_zero fits regular
    simp only [Nat.sub_zero] at next
    cases ret with
    | error e =>
        obtain ⟨rfl, rfl⟩ := failed e rfl
        obtain ⟨rfl, rfl, _⟩ := next.error
        refine ⟨qu, [], o', _, ?_, next, by rwa [List.append_nil], rfl, fun _ _ => rfl⟩
        simp only [outOfBand, get]
        rw [copyRoom] at call
        simp only [call, Nat.add_zero]
    | ok n =>
        have room : info'.done + info'.scratch ≤ qu.data.max - qu.state.done :=
          Nat.le_trans size (Nat.min_le_left _ _)
        have valid : ({ qu.data with
            len := qu.state.done + (info'.done + info'.scratch) } : Queue).Valid :=
          ⟨h.valid.off_le, by simp only; omega⟩
        have stored := holds.mem
        rw [List.nil_append] at stored
        rcases Queue.setRange_spec valid qu.state.done (.bytes (buf'.read 1 (info'.done + info'.scratch)))
          with ⟨_, m, flags', set, result⟩ | ⟨_, excess, _⟩
        · refine ⟨⟨{ qu.data with
              mem := m
              len := qu.state.done + (info'.done + info'.scratch) },
              { info' with done := qu.state.done + info'.done }⟩, add, o', _, ?_, next, ?_, rfl,
              fun e eq => (nomatch eq)⟩
          · simp only [outOfBand, get]
            rw [copyRoom] at call
            simp only [call]
            rw [if_neg (by omega)]
            simp only [set]
          · refine ⟨⟨h.valid.off_le, valid.len_le⟩, h.base, ?_, holds.scratch, ?_, holds.short⟩
            · simp only [holds.done, List.nil_append, List.length_append, done]
            · have front : ({ qu.data with
                  len := qu.state.done + (info'.done + info'.scratch) } : Queue).content.take
                    qu.state.done = fin := by
                rw [take_content qu.data (by omega) (by omega), content, done, List.take_left]
              have long : (add ++ progress o').length = info'.done + info'.scratch := by
                rw [← stored, Mem.length_read]
              simp only [front, Data.content, Data.len, stored, long] at result
              have none : (({ qu.data with
                  len := qu.state.done + (info'.done + info'.scratch) } : Queue).content).drop
                    (qu.state.done + (info'.done + info'.scratch)) = [] :=
                List.drop_of_length_le (Nat.le_of_eq (Queue.length_content _))
              rw [result, none, List.append_nil, List.append_assoc]
        · simp [Data.len] at excess

/-- What is left when an open block reached the end of the copy does not fit. -/
theorem rest_full {p q : List Byte} {done : Nat} (cut : Cut c.variant (copyRoom qu) (o.getD []) src p q)
    (rest : q ≠ []) (none : (split c.variant (o.getD []) p).1 = [])
    (short : Short c.variant (split c.variant (o.getD []) p).2) (same : done = qu.state.done) :
    copyRoom qu = qu.data.max - done ∧
      Full c (qu.data.max - done) (some (split c.variant (o.getD []) p).2) q := by
  have stop := cut.stop.resolve_left rest
  have size := short.size
  have high := c.variant.maxlen_le
  rw [splitSize, none, length_opened] at stop
  simp only [encoded_nil, List.length_nil, Nat.zero_add] at stop
  have room : copyRoom qu = qu.data.max - done := by
    unfold copyRoom at *
    omega
  refine ⟨room, ?_⟩
  rw [Full, if_neg rest, Option.getD_some]
  omega

/-- The open block starts in the lower part. -/
theorem lower_push (h : Coded c.variant qu fin o)
    (before : qu.state.done < qu.data.max - qu.data.off)
    (works : Works c qu.state.done (qu.data.max - qu.state.done) o src)
    (clean : if qu.state.scratch ≤ qu.data.max - qu.data.off - qu.state.done then
        Works c qu.state.done (qu.data.max - qu.data.off - qu.state.done) o src ∧
          TakesAll c (qu.data.max - qu.data.off - qu.state.done) o src
      else Works c 0 (copyRoom qu) o src ∧ Stays c (copyRoom qu) o src) :
    ∃ qu' add o' ret, qu.pushLower c.encoder (.bytes src) = some (qu', ret) ∧
      Pushes c qu qu'.settled fin o src add o' ret := by
  have small := h.scratch_lt
  unfold pushLower
  simp only [source_eq]
  split at clean
  · next fits =>
      obtain ⟨works', all⟩ := clean
      obtain ⟨qu₁, add, o', ret, call, next, coded, max, failed⟩ := h.lower before fits works'
      rw [if_pos fits, call]
      cases ret with
      | error e =>
          obtain rfl := failed e rfl
          obtain ⟨qu', add', o'', ret', call', pushes⟩ := h.aligned works
          exact ⟨qu', add', o'', ret', by simp only [call'], pushes⟩
      | ok n =>
          have le : qu.data.max - qu.data.off - qu.state.done ≤ qu.data.max - qu.state.done := by
            omega
          obtain ⟨next, taken⟩ := next.more all le
          refine ⟨qu₁, add, o', .ok n, ?_, next, coded, max⟩
          simp only [Data.len, taken, Nat.lt_irrefl, if_false]
  · next fits =>
      obtain ⟨works', stays⟩ := clean
      obtain ⟨qu₁, add, o', ret, call, next, coded, max, failed⟩ := h.copied works'
      rw [if_neg fits, if_neg (by omega), call]
      cases ret with
      | error e =>
          obtain rfl := failed e rfl
          obtain ⟨qu', add', o'', ret', call', pushes⟩ := h.aligned works
          exact ⟨qu', add', o'', ret', by simp only [call'], pushes⟩
      | ok n =>
          have room : copyRoom qu ≤ qu.data.max - qu.state.done := Nat.min_le_left _ _
          have settled : Coded c.variant qu₁.settled (fin ++ add) o' := by
            rw [coded.settled_eq]
            exact coded
          cases next with
          | close closes =>
              exact ⟨qu₁, _, _, .ok 0, by simp [Data.len], .close (closing_more closes room),
                settled, max⟩
          | @data _ p q cut =>
              by_cases rest : q = []
              · subst rest
                have taken : p.length = src.length := by rw [cut.read, List.append_nil]
                refine ⟨qu₁, _, _, .ok p.length, ?_, .data (cut.more room), settled, max⟩
                simp only [Data.len, taken, Nat.lt_irrefl, if_false]
              · have none := (stays p q cut).resolve_left rest
                have same : qu₁.state.done = qu.state.done := by
                  rw [coded.done, h.done, none, encoded_nil, List.append_nil]
                obtain ⟨whole, full⟩ := rest_full cut rest none coded.short same
                rw [← max] at full
                obtain ⟨qu', add', o'', ret', call', pushes⟩ := coded.aligned (.inl full)
                obtain ⟨rfl, rfl, rfl⟩ := pushes.next.unique full.next
                have left : src.drop p.length = q := by rw [cut.read, List.drop_left]
                have some : source q = some (.bytes q) := by rw [source, if_neg rest]
                have fewer : p.length < src.length := by
                  have := List.length_pos_iff.mpr rest
                  rw [cut.read, List.length_append]
                  omega
                refine ⟨qu', _, _, .ok p.length, ?_, .data (whole.trans (by rw [same]) ▸ cut), ?_,
                  pushes.max.trans max⟩
                · simp only [Data.len, fewer, if_true, same, before, Data.drop, left, ← some, call',
                    total]
                · have coded' := pushes.coded
                  rwa [List.append_nil] at coded'

end Coded

/-- The open block, as it is found behind the finished bytes. -/
def openBlock (qu : EncodeQueue) : Option (List Byte) :=
  if qu.state.scratch = 0 then
    none
  else
    some ((qu.data.content.drop (qu.state.done + 1)).take (qu.state.scratch - 1))

/-- The condition for a push: whatever part of the storage is used, the encoder can work
    in it, and nothing is left for another one. -/
def Clean (c : Codec) (qu : EncodeQueue) (src : List Byte) : Prop :=
  let low := qu.data.max - qu.data.off
  let room := qu.data.max - qu.state.done
  Works c qu.state.done room qu.openBlock src ∧
    (qu.data.off ≠ 0 →
      if low ≤ qu.state.done then
        Full c room qu.openBlock src ∨ qu.state.done = low
      else if qu.state.scratch ≤ low - qu.state.done then
        Works c qu.state.done (low - qu.state.done) qu.openBlock src ∧
          TakesAll c (low - qu.state.done) qu.openBlock src
      else
        Works c 0 (copyRoom qu) qu.openBlock src ∧ Stays c (copyRoom qu) qu.openBlock src)

theorem Coded.openBlock_eq {v : Variant} {qu : EncodeQueue} {fin : List Byte}
    {o : Option (List Byte)} (h : Coded v qu fin o) : qu.openBlock = o := by
  unfold openBlock
  rw [h.scratch, h.content, h.done]
  cases o with
  | none => rfl
  | some o =>
      have tail : (fin ++ progress (some o)).drop (fin.length + 1) = o := by
        rw [← List.drop_drop, List.drop_left]
        rfl
      rw [tail, progress, length_opened, if_neg (Nat.succ_ne_zero _), Nat.add_sub_cancel,
        List.take_length]

section Step

variable {c : Codec} {qu : EncodeQueue} {fin src : List Byte} {o : Option (List Byte)}

/-- A push into a queue that starts with its storage. -/
theorem push_start (h : Coded c.variant qu fin o) (start : qu.data.off = 0)
    (works : Works c qu.state.done (qu.data.max - qu.state.done) o src) :
    ∃ qu' add o' ret, qu.push (some c.encoder) (.bytes src) = (qu', some ret) ∧
      Pushes c qu qu' fin o src add o' ret ∧ qu'.data.off = 0 := by
  obtain ⟨qu', add, o', ret, call, pushes, off, _⟩ := h.whole start works
  refine ⟨qu'.settled, add, o', ret, ?_, pushes, off⟩
  unfold push
  simp only [source_eq]
  rw [if_pos start, call]
  exact settle_eq pushes.coded ret

/-- A push that meets the condition. -/
theorem push_clean (h : Coded c.variant qu fin o) (clean : Clean c qu src) :
    ∃ qu' add o' ret, qu.push (some c.encoder) (.bytes src) = (qu', some ret) ∧
      Pushes c qu qu' fin o src add o' ret := by
  unfold Clean at clean
  simp only [h.openBlock_eq] at clean
  obtain ⟨works, clean⟩ := clean
  by_cases start : qu.data.off = 0
  · obtain ⟨qu', add, o', ret, call, pushes, _⟩ := push_start h start works
    exact ⟨qu', add, o', ret, call, pushes⟩
  have clean := clean start
  unfold push
  simp only [source_eq]
  rw [if_neg start]
  split at clean
  · next past =>
      have works' : Full c (qu.data.max - qu.state.done) o src ∨
          qu.state.done = qu.data.max - qu.data.off ∧
            Regular c 0 (qu.data.max - qu.state.done) o src := by
        rcases clean with full | first
        · exact .inl full
        · exact works.imp id fun regular => ⟨first, regular.first⟩
      obtain ⟨qu', add, o', ret, call, pushes⟩ := h.upper past works'
      refine ⟨_, add, o', ret, ?_, pushes⟩
      rw [if_pos past, call]
      exact settle_eq pushes.coded ret
  · next past =>
      obtain ⟨qu', add, o', ret, call, pushes⟩ := h.lower_push (by omega) works clean
      refine ⟨_, add, o', ret, ?_, pushes⟩
      rw [if_neg past, call]
      exact settle_eq pushes.coded ret

end Step

/-- An encode queue in use: without data a push ends the message. -/
def pushing (c : Codec) : Machine EncodeQueue (List Byte) (Option (Except Error Nat)) :=
  ⟨fun qu src => qu.push (some c.encoder) (.bytes src)⟩

/-- An empty queue that starts at an offset in its storage. -/
def empty (m : Mem Byte) (base max off : Nat) : EncodeQueue := ⟨⟨m, base, 0, max, off⟩, .init⟩

/-- The same content, in a queue that starts with its storage. -/
def Same (v : Variant) (qu ref : EncodeQueue) : Prop :=
  ∃ fin o, Coded v qu fin o ∧ Coded v ref fin o ∧ ref.data.max = qu.data.max ∧ ref.data.off = 0

theorem empty_coded (v : Variant) (m : Mem Byte) {base max off : Nat} (target : base ≠ 0)
    (inside : off ≤ max) : Coded v (empty m base max off) [] none :=
  ⟨⟨inside, Nat.zero_le _⟩, target, rfl, rfl, rfl, short_nil v⟩

theorem same_step {c : Codec} {qu ref : EncodeQueue} {src : List Byte} (same : Same c.variant qu ref)
    (clean : Clean c qu src) :
    ((pushing c).step qu src).2 = ((pushing c).step ref src).2 ∧
      Same c.variant ((pushing c).step qu src).1 ((pushing c).step ref src).1 := by
  obtain ⟨fin, o, h, h', max, start⟩ := same
  have works := clean.1
  rw [h.openBlock_eq, h.done, ← h'.done, ← max] at works
  obtain ⟨qu₁, add, o₁, ret, call, pushes⟩ := push_clean h clean
  obtain ⟨ref₁, add', o₁', ret', call', pushes', off⟩ := push_start h' start works
  have next := pushes'.next
  rw [h'.done, ← h.done, max] at next
  obtain ⟨rfl, rfl, rfl⟩ := pushes.next.unique next
  simp only [pushing, call, call']
  exact ⟨trivial, fin ++ add, o₁, pushes.coded, pushes'.coded,
    by rw [pushes'.max, pushes.max, max], off⟩

/-- The finished bytes. -/
def finished (qu : EncodeQueue) : List Byte := qu.data.content.take qu.state.done

theorem Coded.finished_eq {v : Variant} {qu : EncodeQueue} {fin : List Byte}
    {o : Option (List Byte)} (h : Coded v qu fin o) : qu.finished = fin := by
  rw [finished, h.content, h.done, List.take_left]

theorem finished_run {c : Codec} {qu : EncodeQueue} {fin : List Byte} {o : Option (List Byte)}
    (h : Coded c.variant qu fin o) {srcs : List (List Byte)}
    (clean : (pushing c).Meets (Clean c) qu srcs) :
    qu.finished <+: ((pushing c).after qu srcs).finished := by
  have keep : ∀ q src, (∃ fin' o, Coded c.variant q fin' o ∧ fin <+: fin') → Clean c q src →
      ∃ fin' o, Coded c.variant ((pushing c).step q src).1 fin' o ∧ fin <+: fin' := by
    rintro q src ⟨fin', o, h, part⟩ clean
    obtain ⟨q', add, o', ret, call, pushes⟩ := push_clean h clean
    refine ⟨fin' ++ add, o', ?_, part.trans (List.prefix_append _ _)⟩
    simp only [pushing, call]
    exact pushes.coded
  obtain ⟨fin', o', h', part⟩ :=
    Machine.invariant keep ⟨fin, o, h, List.prefix_rfl⟩ clean
  rw [h.finished_eq, h'.finished_eq]
  exact part

/-- Where every push meets the condition, the queue takes the data and has the content
    as one that starts with its storage, and finished bytes stay. -/
theorem content_of_pushes (c : Codec) (m m' : Mem Byte) {base base' max off : Nat}
    (target : base ≠ 0) (target' : base' ≠ 0) (inside : off < max) (srcs : List (List Byte))
    (clean : (pushing c).Meets (Clean c) (empty m base max off) srcs) :
    (pushing c).outputs (empty m base max off) srcs =
        (pushing c).outputs (empty m' base' max 0) srcs ∧
      ((pushing c).after (empty m base max off) srcs).data.content =
        ((pushing c).after (empty m' base' max 0) srcs).data.content ∧
      ∀ before, before <+: srcs →
        ((pushing c).after (empty m base max off) before).finished <+:
          ((pushing c).after (empty m base max off) srcs).finished := by
  have coded := empty_coded c.variant m target (Nat.le_of_lt inside)
  have same : Same c.variant (empty m base max off) (empty m' base' max 0) :=
    ⟨[], none, coded, empty_coded c.variant m' target' (Nat.zero_le _), rfl, rfl⟩
  obtain ⟨outputs, fin, o, h, h', _⟩ :=
    Machine.simulation (fun _ _ _ same clean => same_step same clean) same clean
  refine ⟨outputs, h.content.trans h'.content.symm, ?_⟩
  rintro before ⟨rest, rfl⟩
  rw [Machine.meets_append] at clean
  rw [Machine.after_append]
  obtain ⟨_, fin', o', h₁, _⟩ :=
    Machine.simulation (fun _ _ _ same clean => same_step same clean) same clean.1
  exact finished_run h₁ clean.2

/-- An open block that has to be moved, as there is no room up to the end of the storage. -/
theorem moved_block : ((pushing .cobs).after (empty (fun _ => 0) 1 8 6) [[1], [5]]).data.content =
      ((pushing .cobs).after (empty (fun _ => 0) 1 8 0) [[1], [5]]).data.content := by
  have first : Clean .cobs (empty (fun _ => 0) 1 8 6) [1] := by
    have all : TakesAll .cobs 2 none [1] := by
      intro p q cut
      cases p with
      | nil => exact absurd rfl cut.some
      | cons a p =>
          have read := (List.cons.inj cut.read).2
          exact (List.append_eq_nil_iff.mp read.symm).2
    have fresh : ∀ room, Regular .cobs 0 room none [1] := by
      intro room
      rw [Regular, if_neg (List.cons_ne_nil _ _)]
      rintro ⟨p, x, q, read, _, size, _⟩
      cases p with
      | nil => exact absurd size (by decide)
      | cons a p => exact absurd (List.cons.inj read).2 (by simp)
    exact ⟨.inr (fresh 8), fun _ => ⟨.inr (fresh 2), all⟩⟩
  have second : Clean .cobs ((pushing .cobs).step (empty (fun _ => 0) 1 8 6) [1]).1 [5] := by
    have all : TakesAll .cobs 2 (some [1]) [5] := by
      intro p q cut
      exact absurd cut.room_lt (by decide)
    have fresh : Regular .cobs 0 8 (some [1]) [5] := by
      rw [Regular, if_neg (List.cons_ne_nil _ _)]
      rintro ⟨p, x, q, read, _, size, _⟩
      cases p with
      | nil => exact absurd size (by decide)
      | cons a p => exact absurd (List.cons.inj read).2 (by simp)
    have full : Full .cobs 2 (some [1]) [5] := by
      rw [Full, if_neg (List.cons_ne_nil _ _)]
      decide
    exact ⟨.inr fresh, fun _ => ⟨.inl full, all⟩⟩
  exact (content_of_pushes .cobs (fun _ => 0) (fun _ => 0) Nat.one_ne_zero Nat.one_ne_zero
    (by decide) [[1], [5]] ⟨first, second, trivial⟩).2.1

/-- Data that fits only in part up to the end of the storage: what was stored there is lost
    when the rest is stored after an alignment. -/
theorem part_lost : ¬ ∀ (c : Codec) (m m' : Mem Byte) (base base' max off : Nat), base ≠ 0 →
    base' ≠ 0 → off < max → ∀ srcs : List (List Byte),
      (pushing c).outputs (empty m base max off) srcs =
          (pushing c).outputs (empty m' base' max 0) srcs ∧
        ((pushing c).after (empty m base max off) srcs).data.content =
          ((pushing c).after (empty m' base' max 0) srcs).data.content := by
  intro all
  have same := (all .cobs (fun _ => 0) (fun _ => 0) 1 1 8 6 (by decide) (by decide) (by decide)
    [[1, 5]]).2
  exact absurd same (by decide)

end EncodeQueue

end Mpt
