import Mpt.Array.Raw
import Mpt.Run

/-! # Editing raw content

Insertion, appending, slicing and cutting of an array that is not typed and has one
holder are operations on the list of its bytes.
-/

namespace Mpt.Heap

/-- One call. -/
inductive Edit where
  /-- `mpt_array_insert`, and what is written to the new range -/
  | insert (pos : Nat) (data : List Byte)
  | append (src : Data)
  | slice (off len : Nat)
  | cut (off len : Nat)

/-- `mpt_array_insert` and a copy to the address it returns. -/
def insertData (env : Env) (w : World) (arr : Array) (pos : Nat) (data : List Byte) :
    World × Array × Option Nat :=
  match arrayInsert env w arr pos data.length with
  | (w, arr, none) => (w, arr, none)
  | (w, arr, some addr) =>
      match arr.bind fun p => (w.cells p).map (p, ·) with
      | none => (w.crash, arr, some addr)
      | some (p, b) => (poke w p b pos data, some p, some addr)

/-- `mpt_buffer_cut` on the buffer of an array, if there is one. -/
def cutAt (w : World) (arr : Array) (off len : Nat) : World × Array × Option Nat :=
  match arr.bind fun p => (w.cells p).map (p, ·) with
  | none => (w, arr, none)
  | some (p, b) =>
      match bufferCut w.ledger b off len with
      | (l, b, .error _) => ({ w with ledger := l }.store p b, some p, none)
      | (l, b, .ok keep) => ({ w with ledger := l }.store p b, some p, some keep)

def edit (env : Env) (w : World) (arr : Array) : Edit → World × Array × Option Nat
  | .insert pos data => insertData env w arr pos data
  | .append src => arrayAppend env w arr src
  | .slice off len => arraySlice env w arr off len
  | .cut off len => cutAt w arr off len

/-- A sequence of calls, each with its success. -/
def editor (env : Env) : Machine (World × Array) Edit Bool where
  step s e :=
    let (w, arr, ret) := edit env s.1 s.2 e
    ((w, arr), ret.isSome)

/-- Zeros up to `len` bytes. -/
def zeroExtend (l : List Byte) (len : Nat) : List Byte := l ++ List.replicate (len - l.length) 0

/-- The call as an operation on the bytes. -/
def Edit.apply (l : List Byte) : Edit → List Byte
  | .insert pos data => (zeroExtend l pos).take pos ++ data ++ l.drop pos
  | .append src => l ++ src.content
  | .slice off len => zeroExtend l (off + len)
  | .cut off len => if len = 0 then l.take off else l.take off ++ l.drop (off + len)

/-- The bytes after calls of which some succeed. -/
def applyAll (l : List Byte) : List Edit → List Bool → List Byte
  | e :: es, ok :: oks => applyAll (if ok then e.apply l else l) es oks
  | _, _ => l

/-- The used size of the buffer and its size, if there is one; and what of it may be changed. -/
def extent (w : World) (arr : Array) : Nat × Nat × Nat :=
  match arr.bind w.cells with
  | none => (0, 0, 0)
  | some b => (b.used, b.size, if b.flags.immutable then 0 else b.size)

/-- There is space for a size, or it can be asked for. -/
def Attainable (size total : Nat) : Prop :=
  total ≤ size ∧ total < sizeLimit ∨ total + 192 ≤ sizeLimit

/-- The sizes of a call do not wrap around without being refused, and a cut of nothing does
    not start behind the content. -/
def Fine (s : World × Array) (e : Edit) : Prop :=
  let (used, size, free) := extent s.1 s.2
  match e with
  | .insert pos data =>
      longRoom pos < data.length ∨ Attainable size (max pos used + data.length)
  | .append src => src.len < sizeLimit ∧
      (sizeLimit ≤ used + src.len ∨ Attainable size (used + src.len))
  | .slice off len => sizeLimit ≤ off + len ∨ Attainable free (max used (off + len))
  | .cut off len => len = 0 → off ≤ used

/-- The array has the bytes `l` to itself. -/
def Owns (w : World) (arr : Array) (l : List Byte) : Prop :=
  (arr = none ∧ l = []) ∨
    ∃ p b, arr = some p ∧ Raw w p b ∧ b.refs = 1 ∧ b.content = l

variable {env : Env} {w : World} {p : Nat} {b : Buffer}

/-- What a call does: the list operation, or nothing. -/
def Edits (w : World) (arr : Array) (r : World × Array × Option Nat) (l : List Byte) : Prop :=
  r.1.fault = w.fault ∧
    if r.2.2.isSome then Owns r.1 r.2.1 l
    else r.1.cells = w.cells ∧ r.2.1 = arr ∧ w.mallocs ≤ r.1.mallocs

theorem store_same (cell : w.cells p = some b) : (w.store p b).cells = w.cells := by
  funext q
  simp only [World.store]
  split
  · rename_i same
    rw [same, cell]
  · rfl

/-- `mpt_buffer_cut` of raw content. -/
theorem bufferCut_raw (l : Ledger) {b : Buffer} (raw : b.traits = none) {off len : Nat}
    (fine : len = 0 → off ≤ b.used) :
    (b.used < off + len ∧ ∃ e, bufferCut l b off len = (l, b, .error e)) ∨
      off + len ≤ b.used ∧ ∃ b', bufferCut l b off len = (l, b', .ok b'.used) ∧
        b'.content = (Edit.cut off len).apply b.content ∧ b'.used ≤ b.used ∧
        b'.size = b.size ∧ b'.refs = b.refs ∧ b'.flags = b.flags ∧ b'.traits = none := by
  unfold bufferCut
  by_cases beyond : b.used < len
  · exact .inl ⟨by omega, _, if_pos beyond⟩
  rw [if_neg beyond]
  by_cases range : len ≠ 0 ∧ b.used - len < off
  · exact .inl ⟨by omega, _, if_pos range⟩
  rw [if_neg range]
  have inside : off + len ≤ b.used := by omega
  refine .inr ⟨inside, ?_⟩
  simp only [raw, Bool.false_eq_true, if_false]
  refine ⟨_, rfl, ?_, ?_, rfl, rfl, rfl, raw⟩
  · simp only [Edit.apply, Buffer.content, Buffer.relocate]
    by_cases nothing : len = 0
    · rw [if_pos nothing, if_pos nothing, Nat.sub_self, Mem.take_read, Nat.min_eq_left (by omega)]
      apply Mem.read_congr
      intro i _ _
      exact Mem.move_outside _ (by omega)
    · have rest : b.used - len = off + (b.used - len - off) := by omega
      rw [if_neg nothing, if_neg nothing, Mem.take_read, Nat.min_eq_left (by omega),
        Mem.drop_read _ _ _ _ inside, ← Nat.add_assoc]
      nth_rewrite 2 [rest]
      rw [Mem.read_append, Mem.read_move_disjoint _ (.inl (Nat.le_refl _)), Mem.read_move_self]
      congr 2
      omega
  · simp only
    split <;> omega

/-- What is written to a range behind the content, and the gap before it. -/
theorem content_behind {b b' : Buffer} {pos : Nat} {data : List Byte} (behind : b.used ≤ pos)
    (base : b'.base = b.base)
    (used : b'.used = pos + data.length)
    (mem : b'.mem = b.mem.write (b.base + b.used) (List.replicate (pos - b.used) 0)) :
    (b'.put pos data).content = (Edit.insert pos data).apply b.content := by
  have gap : pos = b.used + (pos - b.used) := by omega
  have front : (b.mem.write (b.base + b.used) (List.replicate (pos - b.used) 0)).read b.base pos =
      b.content ++ List.replicate (pos - b.used) 0 := by
    have zeros := Mem.read_write_self b.mem (b.base + b.used) (List.replicate (pos - b.used) 0)
    rw [List.length_replicate] at zeros
    nth_rewrite 2 [gap]
    rw [Mem.read_append, zeros, Mem.read_write_disjoint _ _ (.inl (Nat.le_refl _))]
    rfl
  simp only [Edit.apply, zeroExtend, length_bufferContent]
  rw [List.drop_of_length_le (by rw [length_bufferContent]; exact behind), List.append_nil,
    List.take_of_length_le (by simp [length_bufferContent]; omega), ← front]
  simp only [Buffer.content, Buffer.put, base, used, mem]
  rw [Mem.read_append, Mem.read_write_self, Mem.read_write_disjoint _ _ (.inl (Nat.le_refl _))]

/-- What is written to a range inside of the content, and the bytes that made place. -/
theorem content_inside {b b' : Buffer} {pos : Nat} {data : List Byte} (inside : pos ≤ b.used)
    (base : b'.base = b.base) (used : b'.used = b.used + data.length)
    (mem : b'.mem = b.mem.move (b.base + (pos + data.length)) (b.base + pos) (b.used - pos)) :
    (b'.put pos data).content = (Edit.insert pos data).apply b.content := by
  have parts : b.used + data.length = pos + data.length + (b.used - pos) := by omega
  simp only [Edit.apply, zeroExtend, length_bufferContent]
  rw [Nat.sub_eq_zero_of_le inside, List.replicate_zero, List.append_nil]
  simp only [Buffer.content, Buffer.put, base, used, mem]
  rw [parts, Mem.read_append, Mem.read_append, Mem.read_write_self,
    Mem.read_write_disjoint _ _ (.inl (Nat.le_refl _)),
    Mem.read_write_disjoint _ _ (.inr (by omega)), ← Nat.add_assoc,
    Mem.read_move_disjoint _ (.inl (by omega)), Mem.read_move_self, Mem.take_read,
    Nat.min_eq_left inside, Mem.drop_read _ _ _ _ inside]

/-- `mpt_buffer_insert` into raw content where the space is there; the bytes of the new range
    are those that are written next. -/
theorem bufferInsert_space (env : Env) (l : Ledger) {b : Buffer} (raw : b.traits = none)
    {pos len : Nat} (room : max pos b.used + len ≤ b.size)
    (small : max pos b.used + len < sizeLimit) :
    (b.flags.immutable = true ∧ bufferInsert env l b pos len = (l, b, none)) ∨
      ∃ b' addr, bufferInsert env l b pos len = (l, b', some addr) ∧
        b'.used = max pos b.used + len ∧ b'.size = b.size ∧ b'.refs = b.refs ∧
        b'.flags = b.flags ∧ b'.traits = none ∧
        ∀ data, data.length = len →
          (b'.put pos data).content = (Edit.insert pos data).apply b.content := by
  obtain ⟨base, size, used, refs, flags, traits, mem, elem⟩ := b
  simp only at raw room small
  subst raw
  have total := Nat.mod_eq_of_lt small
  unfold bufferInsert
  simp only [total]
  by_cases empty : max pos used + len = 0
  · rw [if_pos empty]
    refine .inr ⟨_, _, rfl, by simp only; omega, rfl, rfl, rfl, rfl, ?_⟩
    intro data length
    obtain rfl := List.eq_nil_of_length_eq_zero (show data.length = 0 by omega)
    have nothing : used = 0 ∧ pos = 0 := by omega
    obtain ⟨rfl, rfl⟩ := nothing
    simp [Edit.apply, Buffer.content, Buffer.put, zeroExtend]
  rw [if_neg empty, if_neg (Nat.not_lt.mpr room)]
  by_cases immutable : flags.immutable = true
  · rw [if_pos immutable]
    exact .inl ⟨immutable, rfl⟩
  rw [if_neg immutable]
  simp only [Bool.false_eq_true, if_false]
  right
  by_cases inside : pos < used
  · have place : max pos used + len - (used - pos) = pos + len := by omega
    simp only [if_neg (show used - pos ≠ 0 by omega), Buffer.relocate,
      if_neg (show ¬ used < pos by omega), place]
    refine ⟨_, _, rfl, rfl, rfl, rfl, rfl, rfl, ?_⟩
    rintro data rfl
    exact content_inside (b := ⟨base, size, used, refs, flags, none, mem, elem⟩)
      (Nat.le_of_lt inside) rfl (by simp only; omega) rfl
  · simp only [if_pos (show used - pos = 0 by omega)]
    by_cases gap : used < pos
    · simp only [if_pos gap, Buffer.put]
      refine ⟨_, _, rfl, rfl, rfl, rfl, rfl, rfl, ?_⟩
      rintro data rfl
      exact content_behind (b := ⟨base, size, used, refs, flags, none, mem, elem⟩)
        (Nat.le_of_lt gap) rfl (by simp only; omega) rfl
    · simp only [if_neg gap]
      refine ⟨_, _, rfl, rfl, rfl, rfl, rfl, rfl, ?_⟩
      rintro data rfl
      refine content_behind (b := ⟨base, size, used, refs, flags, none, mem, elem⟩)
        (by simp only; omega) rfl (by simp only; omega) ?_
      simp only
      rw [show pos - used = 0 by omega, List.replicate_zero, Mem.write_nil]

/-- `mpt_buffer_insert` on the buffer of an array and a copy to the new range. -/
theorem insertAt_space (env : Env) (h : Raw w p b) (single : b.refs = 1) (pos : Nat)
    (data : List Byte) (room : max pos b.used + data.length ≤ b.size)
    (small : max pos b.used + data.length < sizeLimit) :
    (b.flags.immutable = true ∧ insertAt env w p pos data.length =
        ({ w with ledger := w.ledger }.store p b, some p, none)) ∨
      ∃ w' b' addr, insertAt env w p pos data.length = (w', some p, some addr) ∧
        w'.cells p = some b' ∧ w'.fault = w.fault ∧ pos + data.length ≤ b'.size ∧
        Owns (w'.store p (b'.put pos data)) (some p)
          ((Edit.insert pos data).apply b.content) := by
  unfold insertAt
  simp only [h.cell]
  rcases bufferInsert_space env w.ledger h.traits room small with
    ⟨immutable, eq⟩ | ⟨b', addr, eq, used, size, refs, flags, traits, content⟩
  · rw [eq]
    exact .inl ⟨immutable, rfl⟩
  · rw [eq]
    refine .inr ⟨_, b', addr, rfl, World.store_self _ _ _, rfl, by omega,
      .inr ⟨p, b'.put pos data, rfl, ?_⟩⟩
    refine ⟨⟨World.store_self _ _ _, h.made, traits, ?_⟩, by rw [← single, ← refs]; rfl,
      content data rfl⟩
    simp only [Buffer.put]
    omega

theorem insertData_stored {arr : Array} {pos : Nat} {data : List Byte} {w' : World} {b' : Buffer}
    {addr : Nat} (eq : arrayInsert env w arr pos data.length = (w', some p, some addr))
    (cell : w'.cells p = some b') (room : pos + data.length ≤ b'.size) :
    insertData env w arr pos data = (w'.store p (b'.put pos data), some p, some addr) := by
  unfold insertData
  simp only [eq, Option.bind_some, cell, Option.map_some]
  unfold poke
  rw [if_neg (by omega)]

theorem insertData_failed {arr arr' : Array} {pos : Nat} {data : List Byte} {w' : World}
    (eq : arrayInsert env w arr pos data.length = (w', arr', none)) :
    insertData env w arr pos data = (w', arr', none) := by
  unfold insertData
  rw [eq]

/-- `mpt_array_insert` where the buffer has to be detached. -/
theorem arrayInsert_detached (env : Env) {pos len : Nat} (cell : w.cells p = some b)
    (guard : ¬ longRoom pos < len) (room : ¬ (max pos b.used + len ≤ b.size ∧ ¬ b.shared))
    (small : max pos b.used + len < sizeLimit) :
    arrayInsert env w (some p) pos len =
      match bufferDetach env w p (max pos b.used + len) with
      | (w, none) => (w, some p, none)
      | (w, some p) => insertAt env w p pos len := by
  unfold arrayInsert
  simp only [cell]
  rw [if_neg guard, Nat.mod_eq_of_lt small]
  simp only [if_neg (Nat.not_le.mpr small)]
  exact if_neg room

theorem insert_edits (env : Env) {arr : Array} {l : List Byte} (owns : Owns w arr l) {pos : Nat}
    {data : List Byte} (fine : Fine (w, arr) (.insert pos data)) :
    Edits w arr (insertData env w arr pos data) ((Edit.insert pos data).apply l) := by
  unfold Fine extent at fine
  by_cases guard : longRoom pos < data.length
  · have eq : arrayInsert env w arr pos data.length = (w.refuse, arr, none) := by
      unfold arrayInsert
      rw [if_pos guard]
    rw [insertData_failed eq]
    exact ⟨rfl, rfl, rfl, Nat.le_refl _⟩
  rcases owns with ⟨rfl, rfl⟩ | ⟨p, b, rfl, raw, single, rfl⟩
  · simp only [guard, false_or, Option.bind_none, Attainable] at fine
    have small : data.length + pos + 192 ≤ sizeLimit := by
      unfold sizeLimit at *
      omega
    have total : (data.length + pos) % sizeLimit = data.length + pos :=
      Nat.mod_eq_of_lt (by omega)
    rcases bufferAlloc_small env w .none small with
      ⟨_, alloc⟩ | ⟨b, alloc, size, used, refs, flags, traits⟩
    · have eq : arrayInsert env w none pos data.length =
          (({ w with mallocs := w.mallocs + 1 } : World).refuse, none, none) := by
        unfold arrayInsert
        simp only [total, alloc]
        rw [if_neg guard]
      rw [insertData_failed eq]
      exact ⟨rfl, rfl, rfl, Nat.le_succ _⟩
    · have room := le_roomFor (data.length + pos)
      have eq : arrayInsert env w none pos data.length =
          ((({ w with mallocs := w.mallocs + 1 } : World).store w.mallocs b).store w.mallocs
            (({ b with used := data.length + pos } : Buffer).put 0 (List.replicate pos 0)),
            some w.mallocs, some (b.base + pos)) := by
        unfold arrayInsert poke
        simp only [total, alloc, World.store_self, List.length_replicate]
        rw [if_neg guard, if_neg (by omega)]
      have stored := insertData_stored eq (World.store_self _ _ _)
        (by simp only [Buffer.put]; omega)
      rw [stored]
      refine ⟨rfl, .inr ⟨_, _, rfl, ⟨World.store_self _ _ _, Nat.lt_succ_self _, traits, ?_⟩, refs, ?_⟩⟩
      · simp only [Buffer.put]
        omega
      · have empty : b.content = [] := by
          rw [Buffer.content, used, Mem.read_zero]
        rw [← empty]
        refine content_behind (by omega) rfl ?_ ?_
        · simp only [Buffer.put]
          omega
        · simp only [Buffer.put, used, Nat.sub_zero]
  · simp only [guard, false_or, Option.bind_some, raw.cell, Attainable] at fine
    have small : max pos b.used + data.length < sizeLimit := by
      unfold sizeLimit at *
      omega
    have total := Nat.mod_eq_of_lt small
    have alone : b.shared = false := by
      simp [Buffer.shared, single]
    by_cases room : max pos b.used + data.length ≤ b.size
    · have eq : arrayInsert env w (some p) pos data.length = insertAt env w p pos data.length := by
        unfold arrayInsert
        simp only [raw.cell]
        rw [if_neg guard, total, if_pos ⟨room, by simp [alone]⟩, if_neg (by omega)]
      rcases insertAt_space env raw single pos data room small with
        ⟨_, kept⟩ | ⟨w', b', addr, done, cell, fault, fits, owns⟩
      · rw [insertData_failed (eq.trans kept)]
        exact ⟨rfl, store_same raw.cell, rfl, Nat.le_refl _⟩
      · rw [insertData_stored (eq.trans done) cell fits]
        exact ⟨fault, owns⟩
    · have eq := arrayInsert_detached env raw.cell guard (fun h => room h.1) small
      obtain ⟨w₁, calm, ⟨detach, cells, _⟩ | ⟨q, b₁, detach, raw₁, used, content, enough, change⟩⟩ :=
        bufferDetach_raw env raw (show b.used ≤ max pos b.used + data.length by omega)
          (fine.resolve_left fun h => room h.1)
      · rw [detach] at eq
        rw [insertData_failed eq]
        exact ⟨calm.fault, cells, rfl, calm.mallocs⟩
      · rw [detach] at eq
        rcases change with ⟨_, _, rfl, _⟩ | ⟨single₁, mutable, _⟩
        · omega
        · rcases insertAt_space env raw₁ single₁ pos data (by rw [used]; exact enough)
            (by rw [used]; exact small) with
            ⟨immutable, _⟩ | ⟨w', b', addr, done, cell, fault, fits, owns⟩
          · rw [mutable] at immutable
            cases immutable
          · rw [insertData_stored (eq.trans done) cell fits, ← content]
            exact ⟨fault.trans calm.fault, owns⟩

theorem append_edits (env : Env) {arr : Array} {l : List Byte} (owns : Owns w arr l) {src : Data}
    (fine : Fine (w, arr) (.append src)) :
    Edits w arr (arrayAppend env w arr src) ((Edit.append src).apply l) := by
  unfold Fine extent at fine
  obtain ⟨size_t, fine⟩ := fine
  rcases owns with ⟨rfl, rfl⟩ | ⟨p, b, rfl, raw, single, rfl⟩
  · simp only [Option.bind_none, Attainable] at fine
    obtain ⟨w', calm, ⟨eq, cells, _⟩ | ⟨q, b', addr, eq, raw, content, _, single, _⟩⟩ :=
      arrayAppend_none env w src (by unfold sizeLimit at *; omega)
    · rw [eq]
      exact ⟨calm.fault, cells, rfl, calm.mallocs⟩
    · rw [eq]
      exact ⟨calm.fault, .inr ⟨q, b', rfl, raw, single, content⟩⟩
  · simp only [Option.bind_some, raw.cell, Attainable] at fine
    by_cases room : b.used + src.len ≤ b.size
    · obtain ⟨w', b', addr, eq, calm, raw', content, _, _, refs, _⟩ := appendAt_raw raw src room
      have append : arrayAppend env w (some p) src = (w', some p, some addr) := by
        have := raw.used
        unfold arrayAppend
        simp only [raw.cell, raw.traits, Option.isSome_none, Bool.false_eq_true, if_false]
        rw [if_neg (by omega), eq]
      rw [append]
      exact ⟨calm.fault, .inr ⟨p, b', rfl, raw', refs.trans single, content⟩⟩
    by_cases checked : sizeLimit ≤ b.used + src.len
    · have refused : arrayAppend env w (some p) src = (w, some p, none) := by
        have := raw.used
        unfold arrayAppend
        simp only [raw.cell, raw.traits, Option.isSome_none, Bool.false_eq_true, if_false]
        rw [if_pos (by omega), if_pos checked]
      rw [refused]
      exact ⟨rfl, rfl, rfl, Nat.le_refl _⟩
    obtain ⟨w', calm, ⟨eq, cells, _⟩ | ⟨q, b', addr, eq, raw', content, _, change⟩⟩ :=
      arrayAppend_raw env raw src ((fine.resolve_left checked).resolve_left fun h => room h.1)
    · rw [eq]
      exact ⟨calm.fault, cells, rfl, calm.mallocs⟩
    · rw [eq]
      refine ⟨calm.fault, .inr ⟨q, b', rfl, raw', ?_, content⟩⟩
      rcases change with ⟨_, _, refs, _⟩ | ⟨_, refs, _⟩
      · exact refs.trans single
      · exact refs

theorem cut_edits {arr : Array} {l : List Byte} (owns : Owns w arr l) {off len : Nat}
    (fine : Fine (w, arr) (.cut off len)) :
    Edits w arr (cutAt w arr off len) ((Edit.cut off len).apply l) := by
  unfold Fine extent at fine
  rcases owns with ⟨rfl, rfl⟩ | ⟨p, b, rfl, raw, single, rfl⟩
  · exact ⟨rfl, rfl, rfl, Nat.le_refl _⟩
  · simp only [Option.bind_some, raw.cell] at fine
    have used := raw.used
    unfold cutAt
    simp only [Option.bind_some, raw.cell, Option.map_some]
    rcases bufferCut_raw w.ledger raw.traits fine with
      ⟨_, e, eq⟩ | ⟨_, b', eq, content, less, size, refs, _, traits⟩
    · rw [eq]
      exact ⟨rfl, store_same raw.cell, rfl, Nat.le_refl _⟩
    · rw [eq]
      refine ⟨rfl, .inr ⟨p, b', rfl, ⟨World.store_self _ _ _, raw.made, traits, by omega⟩, ?_, content⟩⟩
      exact refs.trans single

/-- Zeros behind the content. -/
theorem content_zeros {b : Buffer} (b' : Buffer) (base : b'.base = b.base) {n : Nat}
    (used : b'.used = b.used + n)
    (mem : b'.mem = b.mem.write (b.base + b.used) (List.replicate n 0)) :
    b'.content = b.content ++ List.replicate n 0 := by
  have zeros := Mem.read_write_self b.mem (b.base + b.used) (List.replicate n 0)
  rw [List.length_replicate] at zeros
  simp only [Buffer.content, base, used, mem]
  rw [Mem.read_append, zeros, Mem.read_write_disjoint _ _ (.inl (Nat.le_refl _))]

/-- The end of `mpt_array_slice` where the space is there. -/
theorem sliceAt_space (env : Env) (h : Raw w p b) (single : b.refs = 1)
    (mutable : b.flags.immutable = false) (off total : Nat) (room : total ≤ b.size)
    (small : total < sizeLimit) :
    ∃ w' addr, sliceAt env w p b.used off total = (w', some p, some addr) ∧ w'.fault = w.fault ∧
      Owns w' (some p) (zeroExtend b.content total) := by
  unfold sliceAt
  simp only [h.cell]
  by_cases more : b.used < total
  · rw [if_pos more]
    obtain ⟨ret, b', insert, change⟩ := bufferInsert_raw env w.ledger h.traits mutable
      (Nat.le_refl b.used) (show b.used + (total - b.used) ≤ b.size by omega) (by omega)
    have same : b' = { b with used := b.used + (total - b.used) } ∨
        b' = ({ b with used := b.used + (total - b.used) } : Buffer).relocate
          (b.used + (total - b.used)) b.used 0 := by
      rw [Nat.sub_self] at change
      exact change.imp_left And.left
    have traits : b'.traits = none := by rcases same with rfl | rfl <;> exact h.traits
    have size : b'.size = b.size := by rcases same with rfl | rfl <;> rfl
    have refs : b'.refs = 1 := by rcases same with rfl | rfl <;> exact single
    have used : b'.used = b.used + (total - b.used) := by rcases same with rfl | rfl <;> rfl
    have base : b'.base = b.base := by rcases same with rfl | rfl <;> rfl
    have mem : b'.mem = b.mem := by
      rcases same with rfl | rfl
      · rfl
      · funext a
        exact Mem.move_outside _ (by omega)
    rw [insert]
    simp only [traits]
    unfold poke
    rw [if_neg (by rw [List.length_replicate]; omega)]
    refine ⟨_, _, rfl, rfl, .inr ⟨p, _, rfl, ⟨World.store_self _ _ _, h.made, traits, ?_⟩, refs, ?_⟩⟩
    · simp only [Buffer.put]
      omega
    · unfold zeroExtend
      rw [length_bufferContent]
      refine content_zeros (b'.put b.used (List.replicate (total - b.used) 0)) base used ?_
      simp only [Buffer.put, mem, base]
  · rw [if_neg more]
    refine ⟨w, _, rfl, rfl, .inr ⟨p, b, rfl, h, single, ?_⟩⟩
    unfold zeroExtend
    rw [length_bufferContent, Nat.sub_eq_zero_of_le (Nat.le_of_not_lt more), List.replicate_zero,
      List.append_nil]

/-- `mpt_array_slice` of raw content. -/
theorem arraySlice_raw (env : Env) (raw : Raw w p b) {off len : Nat}
    (checked : ¬ sizeLimit ≤ off + len) :
    arraySlice env w (some p) off len =
      if b.size < off + len ∨ b.flags.immutable ∨ b.shared then
        match bufferDetach env w p (max b.used (off + len)) with
        | (w, none) => (w, some p, none)
        | (w, some p) => sliceAt env w p b.used off (off + len)
      else
        sliceAt env w p b.used off (off + len) := by
  unfold arraySlice
  simp only [raw.cell, raw.traits, Bool.false_eq_true, if_false]
  exact if_neg checked

theorem slice_edits (env : Env) {arr : Array} {l : List Byte} (owns : Owns w arr l) {off len : Nat}
    (fine : Fine (w, arr) (.slice off len)) :
    Edits w arr (arraySlice env w arr off len) ((Edit.slice off len).apply l) := by
  unfold Fine extent at fine
  by_cases checked : sizeLimit ≤ off + len
  · have refused : arraySlice env w arr off len = (w, arr, none) := if_pos checked
    rw [refused]
    exact ⟨rfl, rfl, rfl, Nat.le_refl _⟩
  rcases owns with ⟨rfl, rfl⟩ | ⟨p, b, rfl, raw, single, rfl⟩
  · simp only [checked, false_or, Option.bind_none, Attainable] at fine
    have small : off + len + 192 ≤ sizeLimit := by
      unfold sizeLimit at *
      omega
    rcases bufferAlloc_small env w .none small with
      ⟨_, alloc⟩ | ⟨b, alloc, size, used, refs, flags, traits⟩
    · have eq : arraySlice env w none off len =
          (({ w with mallocs := w.mallocs + 1 } : World).refuse, none, none) := by
        unfold arraySlice
        simp only [alloc]
        exact if_neg checked
      rw [eq]
      exact ⟨rfl, rfl, rfl, Nat.le_succ _⟩
    · have room := le_roomFor (off + len)
      have eq : arraySlice env w none off len =
          ((({ w with mallocs := w.mallocs + 1 } : World).store w.mallocs b).store w.mallocs
            (({ b with used := off + len } : Buffer).put 0 (List.replicate (off + len) 0)),
            some w.mallocs, some (b.base + off)) := by
        unfold arraySlice poke
        simp only [alloc, World.store_self, List.length_replicate]
        rw [if_neg checked, if_neg (by omega)]
      rw [eq]
      refine ⟨rfl, .inr ⟨_, _, rfl, ⟨World.store_self _ _ _, Nat.lt_succ_self _, traits, ?_⟩, refs, ?_⟩⟩
      · simp only [Buffer.put]
        omega
      · have empty : b.content = [] := by
          rw [Buffer.content, used, Mem.read_zero]
        have zeros := content_zeros (b := b) (n := off + len)
          (({ b with used := off + len } : Buffer).put 0 (List.replicate (off + len) 0)) rfl
          (by simp only [Buffer.put]; omega) (by simp only [Buffer.put, used])
        rw [zeros, empty]
        simp [Edit.apply, zeroExtend]
  · simp only [checked, false_or, Option.bind_some, raw.cell, Attainable] at fine
    have whole := raw.used
    have alone : b.shared = false := by
      simp [Buffer.shared, single]
    have eq := arraySlice_raw env raw checked
    by_cases detach : b.size < off + len ∨ b.flags.immutable ∨ b.shared
    · rw [if_pos detach] at eq
      have small : max b.used (off + len) + 192 ≤ sizeLimit := by
        rcases fine with ⟨fits, _⟩ | small
        · rcases detach with full | immutable | shared
          · split at fits <;> omega
          · rw [if_pos immutable] at fits
            unfold sizeLimit
            omega
          · rw [alone] at shared
            cases shared
        · exact small
      obtain ⟨w₁, calm, ⟨eq', cells, _⟩ | ⟨q, b₁, eq', raw₁, used, content, enough, change⟩⟩ :=
        bufferDetach_raw env raw (Nat.le_max_left b.used (off + len)) small
      · rw [eq, eq']
        exact ⟨calm.fault, cells, rfl, calm.mallocs⟩
      · have fresh : b₁.refs = 1 ∧ b₁.flags.immutable = false := by
          rcases change with ⟨_, _, rfl, mutable⟩ | ⟨single₁, mutable, _⟩
          · exact ⟨single, mutable⟩
          · exact ⟨single₁, mutable⟩
        obtain ⟨w', addr, done, fault, owns⟩ := sliceAt_space env raw₁ fresh.1 fresh.2
          off (off + len) (by omega) (by omega)
        rw [eq, eq']
        simp only [← used, done]
        refine ⟨fault.trans calm.fault, ?_⟩
        rw [← content]
        exact owns
    · rw [if_neg detach] at eq
      have mutable : b.flags.immutable = false := by simpa using fun h => detach (.inr (.inl h))
      obtain ⟨w', addr, done, fault, owns⟩ := sliceAt_space env raw single mutable
        off (off + len) (by omega) (by omega)
      rw [eq, done]
      exact ⟨fault, owns⟩

/-- Any call on bytes that the array has to itself. -/
theorem edit_edits (env : Env) {arr : Array} {l : List Byte} (owns : Owns w arr l) {e : Edit}
    (fine : Fine (w, arr) e) : Edits w arr (edit env w arr e) (e.apply l) := by
  cases e with
  | insert pos data => exact insert_edits env owns fine
  | append src => exact append_edits env owns fine
  | slice off len => exact slice_edits env owns fine
  | cut off len => exact cut_edits owns fine

/-- Nothing of the content changes in a call that fails. -/
theorem Owns.keep {arr : Array} {l : List Byte} (owns : Owns w arr l) {w' : World}
    (cells : w'.cells = w.cells) (mallocs : w.mallocs ≤ w'.mallocs) : Owns w' arr l := by
  rcases owns with none | ⟨p, b, rfl, raw, single, content⟩
  · exact .inl none
  · exact .inr ⟨p, b, rfl, ⟨by rw [cells]; exact raw.cell, by have := raw.made; omega, raw.traits,
      raw.used⟩, single, content⟩

theorem editor_step (env : Env) {s : World × Array} {l : List Byte} (owns : Owns s.1 s.2 l)
    {e : Edit} (fine : Fine s e) :
    Owns ((editor env).step s e).1.1 ((editor env).step s e).1.2
        (if ((editor env).step s e).2 then e.apply l else l) ∧
      ((editor env).step s e).1.1.fault = s.1.fault ∧
      (((editor env).step s e).2 = false →
        ((editor env).step s e).1.1.cells = s.1.cells ∧ ((editor env).step s e).1.2 = s.2) := by
  obtain ⟨w, arr⟩ := s
  obtain ⟨fault, result⟩ := edit_edits env owns fine
  simp only at fault result
  rcases eq : edit env w arr e with ⟨w', arr', ret⟩
  rw [eq] at fault result
  simp only [editor, eq]
  cases ret with
  | none =>
      simp only [Option.isSome_none, Bool.false_eq_true, if_false] at result ⊢
      obtain ⟨cells, rfl, mallocs⟩ := result
      exact ⟨owns.keep cells mallocs, fault, fun _ => ⟨cells, rfl⟩⟩
  | some addr =>
      simp only [Option.isSome_some, if_true] at result ⊢
      exact ⟨result, fault, nofun⟩

/-- In a run whose calls meet the condition the bytes change as the list operations of those
    that succeed say, the used size stays within the buffer, no other storage is touched, and
    a call that fails changes no buffer. -/
theorem edits_refine (env : Env) {s : World × Array} {l : List Byte} (owns : Owns s.1 s.2 l)
    (es : List Edit) (fine : (editor env).Meets Fine s es) :
    Owns ((editor env).after s es).1 ((editor env).after s es).2
        (applyAll l es ((editor env).outputs s es)) ∧
      ((editor env).after s es).1.fault = s.1.fault ∧
      ∀ js e, js ++ [e] <+: es → ((editor env).step ((editor env).after s js) e).2 = false →
        ((editor env).step ((editor env).after s js) e).1.1.cells =
            ((editor env).after s js).1.cells ∧
          ((editor env).step ((editor env).after s js) e).1.2 = ((editor env).after s js).2 := by
  induction es generalizing s l with
  | nil =>
      refine ⟨owns, rfl, ?_⟩
      intro js e part
      simp at part
  | cons e es ih =>
      obtain ⟨first, rest⟩ := fine
      obtain ⟨next, fault, failed⟩ := editor_step env owns first
      obtain ⟨final, fault', failures⟩ := ih next rest
      refine ⟨final, fault'.trans fault, ?_⟩
      intro js e' part
      cases js with
      | nil =>
          obtain ⟨rfl, _⟩ := List.cons_prefix_cons.mp part
          exact failed
      | cons j js =>
          obtain ⟨rfl, inner⟩ := List.cons_prefix_cons.mp part
          exact failures js e' inner

theorem edits_example :
    Owns ((editor granting).after (.empty, none) [.append (.bytes [1, 2]), .cut 0 1]).1
      ((editor granting).after (.empty, none) [.append (.bytes [1, 2]), .cut 0 1]).2 [2] := by
  have fine : (editor granting).Meets Fine (.empty, none) [.append (.bytes [1, 2]), .cut 0 1] :=
    ⟨⟨by decide, .inr (.inr (by decide))⟩, nofun, trivial⟩
  exact (edits_refine granting (.inl ⟨rfl, rfl⟩) _ fine).1

/-- A cut of nothing at offset 100 of a buffer with one byte. -/
theorem cut_extends : ¬ ∀ env es,
    let s := (editor env).after (.empty, none) es
    (extent s.1 s.2).1 ≤ (extent s.1 s.2).2.1 := by
  intro all
  exact absurd (all granting [.append (.bytes [1]), .cut 100 0]) (by decide)

end Mpt.Heap
