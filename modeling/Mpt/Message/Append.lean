import Mpt.Array.Elements
import Mpt.Message.Fragments

/-! # Appending a message to an array

`mpt_message_append` counts the further parts down before it looks at the first of them:
the last one is never added, and without any the count wraps around.
-/

namespace Mpt.Heap

/-- The data of a part as `mpt_array_append` takes it: zeros without an address. -/
def partData (m : Mem Byte) (v : Iovec) : Data :=
  if v.base = 0 then .null v.len else .bytes (m.read v.base v.len)

/-- The data of several parts. -/
def partsData (m : Mem Byte) (parts : List Iovec) : List Byte :=
  parts.flatMap fun v => (partData m v).content

/-- Reset of the array state. -/
def resetUsed (w : World) (arr : Array) (olen : Nat) : World :=
  match arr with
  | none => w
  | some p =>
      match w.cells p with
      | none => w.crash
      | some b => w.store p { b with used := olen }

/-- The loop of `mpt_message_append`. -/
def appendParts (env : Env) (m : Mem Byte) (olen : Nat) :
    List Iovec → World → Array → World × Array × Except Error Unit
  | [], w, arr => (w, arr, .ok ())
  | v :: vs, w, arr =>
      -- skip empty segments
      if v.len = 0 then
        appendParts env m olen vs w arr
      else
        match arrayAppend env w arr (partData m v) with
        | (w, arr, some _) => appendParts env m olen vs w arr
        | (w, arr, none) => (resetUsed w arr olen, arr, .error .missingBuffer)

/-- `mpt_message_append` -/
def messageAppend (env : Env) (m : Mem Byte) (w : World) (arr : Array) (msg : Message) :
    World × Array × Except Error Unit :=
  let olen := ((arr.bind w.cells).map Buffer.used).getD 0
  -- the first part is added like the others
  match appendParts env m olen [⟨msg.base, msg.used⟩] w arr with
  | (w, arr, .error e) => (w, arr, .error e)
  | (w, arr, .ok ()) =>
      match msg.cont with
      | [] => (w.crash, arr, .ok ())
      | v :: vs => appendParts env m olen (v :: vs).dropLast w arr

/-- The content of an array. -/
def arrayContent (w : World) (arr : Array) : List Byte :=
  match arr.bind w.cells with
  | none => []
  | some b => b.content

/-- All of the message is added, or an error leaves the content as it is. -/
def Appends (env : Env) (m : Mem Byte) (w : World) (arr : Array) (msg : Message) : Prop :=
  match messageAppend env m w arr msg with
  | (w', arr', ret) => w'.fault = false ∧
      match ret with
      | .ok () => arrayContent w' arr' =
          arrayContent w arr ++ partsData m (⟨msg.base, msg.used⟩ :: msg.cont)
      | .error _ => arrayContent w' arr' = arrayContent w arr

/-- What decides whether a buffer takes more data. -/
structure Space where
  size : Nat
  used : Nat
  refs : Nat
  noCopy : Bool
  typed : Bool
  deriving DecidableEq

def Buffer.space (b : Buffer) : Space :=
  ⟨b.size, b.used, b.refs, b.flags.noCopy, b.traits.isSome⟩

/-- What becomes of data for a buffer, as long as there is memory: it is added, it is turned
    down, or sizes wrap around and it goes to a block that is too small. -/
inductive Intake where
  | taken (s : Space)
  | refused
  | wrong
  deriving DecidableEq

/-- A new block for `used` bytes and as many as make `total`. -/
def renewed (refs used total : Nat) (noCopy : Bool) : Intake :=
  if blockSize total < 64 then
    .wrong
  -- the content is copied first
  else if refs ≠ 1 ∧ blockSize total - 64 < used then
    .refused
  else if blockSize total - 64 < total then
    .wrong
  else
    .taken ⟨blockSize total - 64, total, 1, noCopy, false⟩

/-- Typed content takes nothing, and content with other holders that must not be copied only
    what its buffer has space for. -/
def Space.add (s : Space) (len : Nat) : Intake :=
  if s.typed then
    .refused
  else if s.size - s.used < len then
    if sizeLimit ≤ s.used + len ∨ 2 ≤ s.refs ∧ s.noCopy ∧ s.used ≠ 0 then
      .refused
    else
      renewed s.refs s.used (s.used + len) s.noCopy
  else
    .taken { s with used := s.used + len }

/-- What becomes of more data for the same buffer. -/
def Intake.next (a : Intake) (more : Space → Intake) : Intake :=
  match a with
  | .taken s => more s
  | .refused => .refused
  | .wrong => .wrong

/-- The parts one after the other, the empty ones left out. -/
def Space.takes (s : Space) : List Iovec → Intake
  | [] => .taken s
  | v :: vs =>
      if v.len = 0 then
        s.takes vs
      else
        (s.add v.len).next fun s => s.takes vs

/-- The same for no array; `.taken` is about the buffer that there is in the end, if any. -/
def newTakes : List Iovec → Intake
  | [] => .taken ⟨0, 0, 0, false, false⟩
  | v :: vs =>
      if v.len = 0 then
        newTakes vs
      else
        (renewed 1 0 v.len false).next fun s => s.takes vs

/-- What becomes of the parts for an array. -/
def takes (w : World) (arr : Array) (parts : List Iovec) : Intake :=
  match arr.bind w.cells with
  | none => newTakes parts
  | some b => b.space.takes parts

/-- An array is null or has a buffer with all of its content. -/
def Whole (w : World) (arr : Array) : Prop :=
  arr = none ∨ ∃ p b, arr = some p ∧ w.cells p = some b ∧ p < w.mallocs ∧ b.used ≤ b.size

/-- The buffer `b` at `p`, with all of its content. -/
structure Full (w : World) (p : Nat) (b : Buffer) : Prop where
  cell : w.cells p = some b
  made : p < w.mallocs
  used : b.used ≤ b.size

variable {env : Env} {m : Mem Byte} {w : World} {p : Nat} {b : Buffer} {olen : Nat}

@[simp] theorem partData_len (m : Mem Byte) (v : Iovec) : (partData m v).len = v.len := by
  unfold partData
  split <;> simp [Data.len]

theorem partData_empty (m : Mem Byte) {v : Iovec} (empty : v.len = 0) :
    (partData m v).content = [] :=
  List.eq_nil_of_length_eq_zero (by rw [Data.length_content, partData_len, empty])

theorem appendParts_append (olen : Nat) (ps qs : List Iovec) (w : World) (arr : Array) :
    appendParts env m olen (ps ++ qs) w arr =
      match appendParts env m olen ps w arr with
      | (w, arr, .error e) => (w, arr, .error e)
      | (w, arr, .ok ()) => appendParts env m olen qs w arr := by
  induction ps generalizing w arr with
  | nil => rfl
  | cons v vs ih =>
      simp only [List.cons_append, appendParts]
      split
      · exact ih w arr
      · rcases arrayAppend env w arr (partData m v) with ⟨w', arr', _ | addr⟩
        · rfl
        · exact ih w' arr'

theorem content_take (b : Buffer) {n : Nat} (le : n ≤ b.used) :
    ({ b with used := n } : Buffer).content = b.content.take n := by
  simp only [Buffer.content]
  rw [Mem.take_read, Nat.min_eq_left le]

section Faults

/-! Storage that was used wrongly stays noted. -/

theorem bufferAlloc_fault (env : Env) (w : World) (len : Nat) (flags : Flags)
    (fault : w.fault = true) : (bufferAlloc env w len flags).1.fault = true := by
  rcases bufferAlloc_provided env w len flags with ⟨_, w', eq, _, same⟩ | ⟨w', b, eq, block⟩
  · rw [eq, same, fault]
  · rw [eq, block.fault, fault, Bool.true_or]

theorem bufferUnref_fault (w : World) (p : Nat) (fault : w.fault = true) :
    (bufferUnref w p).fault = true := by
  unfold bufferUnref
  split
  · rfl
  · split
    · exact fault
    · exact fault

theorem bufferDetach_fault (env : Env) (w : World) (p len : Nat) (fault : w.fault = true) :
    (bufferDetach env w p len).1.fault = true := by
  unfold bufferDetach
  split
  · rfl
  rename_i b _
  split
  · exact fault
  simp only
  split
  · exact fault
  split
  · exact fault
  have made := bufferAlloc_fault env w (detachSize b.traits len)
    { b.flags with immutable := false } fault
  rcases alloc : bufferAlloc env w (detachSize b.traits len)
    { b.flags with immutable := false } with ⟨w', _ | n⟩
  all_goals rw [alloc] at made
  · exact made
  · simp only
    split
    · rfl
    split
    · split
      · exact bufferUnref_fault _ _ made
      · exact made
    · split
      · rfl
      · exact made

theorem appendAt_fault (w : World) (p used : Nat) (src : Data) (fault : w.fault = true) :
    (appendAt w p used src).1.fault = true := by
  unfold appendAt
  split
  · rfl
  split
  · exact fault
  · unfold poke
    simp only
    split
    · rfl
    · exact fault

theorem arrayAppend_fault (env : Env) (w : World) (arr : Array) (src : Data)
    (fault : w.fault = true) : (arrayAppend env w arr src).1.fault = true := by
  unfold arrayAppend
  cases arr with
  | none =>
      have made := bufferAlloc_fault env w src.len .none fault
      simp only
      rcases alloc : bufferAlloc env w src.len .none with ⟨w', _ | n⟩
      all_goals rw [alloc] at made
      · exact made
      · exact appendAt_fault w' n 0 src made
  | some p =>
      simp only
      split
      · rfl
      rename_i b _
      split
      · exact fault
      split
      · split
        · exact fault
        have detached := bufferDetach_fault env w p (b.used + src.len) fault
        rcases detach : bufferDetach env w p (b.used + src.len) with ⟨w', _ | q⟩
        all_goals rw [detach] at detached
        · exact detached
        · exact appendAt_fault w' q b.used src detached
      · exact appendAt_fault w p b.used src fault

theorem resetUsed_fault (w : World) (arr : Array) (olen : Nat) (fault : w.fault = true) :
    (resetUsed w arr olen).fault = true := by
  unfold resetUsed
  split
  · exact fault
  · split
    · rfl
    · exact fault

theorem appendParts_fault (env : Env) (m : Mem Byte) (olen : Nat) (parts : List Iovec) (w : World)
    (arr : Array) (fault : w.fault = true) :
    (appendParts env m olen parts w arr).1.fault = true := by
  induction parts generalizing w arr with
  | nil => exact fault
  | cons v vs ih =>
      unfold appendParts
      split
      · exact ih w arr fault
      have added := arrayAppend_fault env w arr (partData m v) fault
      rcases append : arrayAppend env w arr (partData m v) with ⟨w', arr', _ | addr⟩
      all_goals rw [append] at added
      · exact resetUsed_fault w' arr' olen added
      · exact ih w' arr' added

theorem appendParts_wrong (env : Env) (m : Mem Byte) (olen : Nat) {v : Iovec} (vs : List Iovec)
    (w : World) (arr : Array) (data : v.len ≠ 0)
    (fault : (arrayAppend env w arr (partData m v)).1.fault = true) :
    (appendParts env m olen (v :: vs) w arr).1.fault = true := by
  unfold appendParts
  rw [if_neg data]
  rcases append : arrayAppend env w arr (partData m v) with ⟨w', arr', _ | addr⟩
  all_goals rw [append] at fault
  · exact resetUsed_fault w' arr' olen fault
  · exact appendParts_fault env m olen vs w' arr' fault

end Faults

/-- One part added to a buffer. -/
inductive Step (env : Env) (w : World) (p : Nat) (b : Buffer) (src : Data) :
    World × Array × Option Nat → Prop where
  | failed {w' : World} {b' : Buffer} (fault : w'.fault = w.fault) (cell : w'.cells p = some b')
      (content : b'.content = b.content) (used : b'.used = b.used)
      (why : b.space.add src.len = .refused ∨ ∃ n size, env.malloc n size = 0) :
      Step env w p b src (w', some p, none)
  | added {w' : World} {q addr : Nat} {b' : Buffer} (fault : w'.fault = w.fault)
      (full : Full w' q b') (content : b'.content = b.content ++ src.content)
      (space : b.space.add src.len = .taken b'.space) :
      Step env w p b src (w', some q, some addr)
  | wrong {r : World × Array × Option Nat} (fault : r.1.fault = true)
      (space : b.space.add src.len = .wrong) : Step env w p b src r

theorem appendAt_end (cell : w.cells p = some b) (src : Data) (data : src.len ≠ 0) :
    ∃ w' addr b', appendAt w p b.used src = (w', some p, some addr) ∧ w'.cells p = some b' ∧
      w'.mallocs = w.mallocs ∧ b'.content = b.content ++ src.content ∧
      b'.space = { b.space with used := b.used + src.len } ∧
      w'.fault = (w.fault || decide (b.size < b.used + src.len)) := by
  unfold appendAt
  simp only [cell]
  rw [if_neg data]
  have content := content_put b src.content
  rw [Data.length_content] at content
  unfold poke
  simp only [Data.length_content]
  by_cases behind : b.size < b.used + src.len
  · rw [if_pos behind]
    exact ⟨_, _, _, rfl, World.store_self _ _ _, rfl, content, rfl,
      by rw [decide_eq_true behind, Bool.or_true]; rfl⟩
  · rw [if_neg behind]
    exact ⟨_, _, _, rfl, World.store_self _ _ _, rfl, content, rfl,
      by rw [decide_eq_false behind, Bool.or_false]; rfl⟩

/-- What becomes of raw content that goes to a block for `total` bytes. -/
inductive Grown (env : Env) (w : World) (p : Nat) (b : Buffer) (total : Nat) :
    World × Option Nat → Prop where
  | refused {w' : World} (null : ∃ n size, env.malloc n size = 0) (fault : w'.fault = w.fault)
      (cell : w'.cells p = some b) : Grown env w p b total (w', none)
  | released {w' : World} (copied : b.refs ≠ 1) (large : blockSize total - 64 < b.used)
      (fault : w'.fault = (w.fault || decide (blockSize total < 64)))
      (cell : w'.cells p = some { b with refs := b.refs - 1 }) : Grown env w p b total (w', none)
  | made {w' : World} {q : Nat} {b' : Buffer}
      (fits : ¬ (b.refs ≠ 1 ∧ blockSize total - 64 < b.used))
      (fault : w'.fault =
        (w.fault || decide (blockSize total < 64) || decide (blockSize total - 64 < b.used)))
      (cell : w'.cells q = some b') (made : q < w'.mallocs) (used : b'.used = b.used)
      (content : b'.content = b.content)
      (space : b'.space = ⟨blockSize total - 64, b.used, 1, b.flags.noCopy, false⟩) :
      Grown env w p b total (w', some q)

theorem bufferDetach_grown (env : Env) (h : Full w p b) (raw : b.traits = none) {total : Nat}
    (more : b.size < total) (free : ¬ b.pinned) :
    Grown env w p b total (bufferDetach env w p total) := by
  have sized : (b.traits.any fun traits => decide (traits.size = 0)) = false := by
    simp [raw]
  have len_eq : detachSize b.traits total = total := by rw [raw]; rfl
  have renew : ¬ (b.refs < 2 ∧ detachSize b.traits total ≤ b.size ∧
      b.flags.immutable = false) := by
    rw [len_eq]
    exact fun keep => absurd keep.2.1 (Nat.not_le.mpr more)
  have other : p ≠ w.mallocs := Nat.ne_of_lt h.made
  rcases bufferAlloc_provided env w total { b.flags with immutable := false } with
    ⟨null, w', alloc, cells, fault⟩ | ⟨w', next, alloc, block⟩
  · rw [← len_eq] at alloc
    rw [detach_refused h.cell sized renew free alloc]
    exact .refused ⟨_, _, null⟩ fault ((congrFun cells p).trans h.cell)
  have made : w'.cells w.mallocs = some next := by rw [block.cells, World.store_self]
  have size := block.size
  have used := block.used
  have later : w.mallocs < w'.mallocs := by rw [block.mallocs]; exact Nat.lt_succ_self _
  rw [← len_eq] at alloc
  by_cases one : b.refs = 1
  · have lower : refcountLower b.refs = (0, true) := by rw [one]; rfl
    have kept : shrink w'.ledger b (detachSize b.traits total) = (w'.ledger, b.used) := by
      have le := h.used
      unfold shrink
      rw [len_eq, if_neg (by omega)]
    have moved := detach_moved h.cell sized renew free alloc made lower
    simp only [kept] at moved
    rw [moved]
    have content : (moveContent { next with traits := b.traits } b b.used).content = b.content := by
      have := Mem.read_write_self next.mem next.base (b.mem.read b.base b.used)
      rwa [Mem.length_read] at this
    have space : (moveContent { next with traits := b.traits } b b.used).space =
        ⟨blockSize total - 64, b.used, 1, b.flags.noCopy, false⟩ := by
      simp [Buffer.space, moveContent, size, block.refs, block.flags, raw]
    have cell : (({ w' with ledger := w'.ledger }.store w.mallocs
        (moveContent { next with traits := b.traits } b b.used)).free p).cells w.mallocs =
          some (moveContent { next with traits := b.traits } b b.used) := by
      rw [World.free_ne _ (Ne.symm other), World.store_self]
    by_cases small : next.size < b.used
    · rw [if_pos small]
      refine .made (fun h => h.1 one) ?_ cell later rfl content space
      rw [decide_eq_true (by omega : blockSize total - 64 < b.used), Bool.or_true]
      rfl
    · rw [if_neg small]
      refine .made (fun h => h.1 one) ?_ cell later rfl content space
      rw [decide_eq_false (by omega : ¬ blockSize total - 64 < b.used), Bool.or_false]
      exact block.fault
  · have lower : refcountLower b.refs = (b.refs - 1, false) := by
      unfold refcountLower
      by_cases zero : b.refs = 0
      · rw [if_pos zero, zero]
      · rw [if_neg zero, decide_eq_false (by omega)]
    have copied := detach_copied h.cell sized renew free alloc made lower
    have count := length_bufferContent b
    by_cases large : blockSize total - 64 < b.used
    · obtain ⟨e, failed⟩ := copy_large env w'.ledger (b := { next with traits := b.traits })
        (c := b.content) (by simp only [count]; omega) b.traits
      rw [failed] at copied
      rw [copied]
      refine .released one large ?_ ?_
      · unfold bufferUnref
        simp only [World.store_self, block.refs]
        exact block.fault
      · unfold bufferUnref
        simp only [World.store_self, block.refs]
        rw [show refcountLower 1 = (0, true) from rfl]
        simp only
        rw [World.free_ne _ other]
        simp [World.store, other]
    · have limit : blockSize total < sizeLimit := Nat.mod_lt _ (by decide)
      have set := bufferSet_raw env w'.ledger (b := { next with traits := b.traits }) raw
        (show 0 + (Data.bytes b.content).len ≤ next.size by
          simp only [Data.len, count]
          omega)
        (by
          simp only [Data.len, count]
          omega)
      have sum : max next.used (0 + (Data.bytes b.content).len) = b.used := by
        simp only [Data.len, count, used]
        omega
      simp only [sum] at set
      rw [raw] at copied set
      rw [set] at copied
      rw [copied]
      refine .made (fun h => large h.2) ?_ (World.store_self _ _ _) later rfl ?_ ?_
      · rw [decide_eq_false large, Bool.or_false]
        exact block.fault
      · simp only [Buffer.content, Buffer.put, Data.content]
        have := Mem.read_write_self next.mem (next.base + 0) (b.mem.read b.base b.used)
        rwa [Mem.length_read] at this
      · simp [Buffer.space, Buffer.put, size, block.refs, block.flags]

theorem arrayAppend_step (env : Env) (h : Full w p b) (src : Data) (data : src.len ≠ 0) :
    Step env w p b src (arrayAppend env w (some p) src) := by
  have le := h.used
  unfold arrayAppend
  simp only [h.cell]
  by_cases typed : b.traits.isSome = true
  · rw [if_pos typed]
    refine .failed rfl h.cell rfl rfl (.inl ?_)
    unfold Space.add
    exact if_pos typed
  have raw : b.traits = none := by simpa using typed
  have plain : b.space.typed = false := by simp [Buffer.space, raw]
  rw [if_neg typed]
  by_cases more : b.size - b.used < src.len
  swap
  · rw [if_neg more]
    obtain ⟨w', addr, b', eq, cell, mallocs, content, space, fault⟩ :=
      appendAt_end h.cell src data
    rw [decide_eq_false (by omega), Bool.or_false] at fault
    have sizes := congrArg Space.size space
    have useds := congrArg Space.used space
    simp only [Buffer.space] at sizes useds
    rw [eq]
    refine .added fault ⟨cell, by rw [mallocs]; exact h.made, by omega⟩ content ?_
    unfold Space.add
    rw [if_neg (by simp [plain]), if_neg (show ¬ b.space.size - b.space.used < src.len from more),
      space]
    rfl
  rw [if_pos more]
  have grows : b.space.add src.len =
      if sizeLimit ≤ b.used + src.len ∨ 2 ≤ b.refs ∧ b.flags.noCopy = true ∧ b.used ≠ 0 then
        .refused
      else renewed b.refs b.used (b.used + src.len) b.flags.noCopy := by
    unfold Space.add
    rw [if_neg (by simp [plain]), if_pos (show b.space.size - b.space.used < src.len from more)]
    rfl
  by_cases limit : sizeLimit ≤ b.used + src.len
  · rw [if_pos limit]
    exact .failed rfl h.cell rfl rfl (.inl (by rw [grows, if_pos (.inl limit)]))
  rw [if_neg limit]
  by_cases pinned : b.pinned
  · have renew : ¬ (b.refs < 2 ∧ detachSize b.traits (b.used + src.len) ≤ b.size ∧
        b.flags.immutable = false) := fun keep => absurd pinned.1 (Nat.not_le.mpr keep.1)
    rw [detach_pinned h.cell (by simp [raw]) renew pinned]
    exact .failed rfl h.cell rfl rfl (.inl (by rw [grows, if_pos (.inr pinned)]))
  have free := pinned
  unfold Buffer.pinned at free
  rw [if_neg (not_or.mpr ⟨limit, free⟩)] at grows
  unfold renewed at grows
  have grown := bufferDetach_grown env h raw (show b.size < b.used + src.len by omega) pinned
  rcases detach : bufferDetach env w p (b.used + src.len) with ⟨w₁, ret⟩
  rw [detach] at grown
  cases grown with
  | refused null fault cell => exact .failed fault cell rfl rfl (.inr null)
  | released copied large fault cell =>
      by_cases header : blockSize (b.used + src.len) < 64
      · rw [if_pos header] at grows
        refine .wrong ?_ grows
        rw [fault, decide_eq_true header, Bool.or_true]
      · rw [if_neg header, if_pos ⟨copied, large⟩] at grows
        rw [decide_eq_false header, Bool.or_false] at fault
        exact .failed fault cell rfl rfl (.inl grows)
  | made fits fault cell made used content space =>
      rename_i q b₁
      obtain ⟨w', addr, b', eq, cell', mallocs, content', space', fault'⟩ :=
        appendAt_end cell src data
      rw [used] at eq
      simp only [eq]
      have size := congrArg Space.size space
      simp only [Buffer.space] at size
      rw [used, size, fault] at fault'
      by_cases header : blockSize (b.used + src.len) < 64
      · rw [if_pos header] at grows
        refine .wrong ?_ grows
        rw [fault', decide_eq_true header, Bool.or_true, Bool.true_or, Bool.true_or]
      rw [if_neg header, if_neg fits] at grows
      by_cases small : blockSize (b.used + src.len) - 64 < b.used + src.len
      · rw [if_pos small] at grows
        refine .wrong ?_ grows
        rw [fault', decide_eq_true small, Bool.or_true]
      · rw [if_neg small] at grows
        rw [decide_eq_false header, decide_eq_false small,
          decide_eq_false (by omega : ¬ blockSize (b.used + src.len) - 64 < b.used)] at fault'
        simp only [Bool.or_false] at fault'
        rw [space, used] at space'
        have sizes := congrArg Space.size space'
        have useds := congrArg Space.used space'
        simp only [Buffer.space] at sizes useds
        refine .added fault' ⟨cell', by rw [mallocs]; exact made, by omega⟩
          (by rw [content', content]) ?_
        rw [grows, space']

theorem arrayContent_some {w : World} {p : Nat} {b : Buffer} (cell : w.cells p = some b) :
    arrayContent w (some p) = b.content := by
  simp only [arrayContent, Option.bind_some, cell]

/-- What becomes of parts that are added to the bytes `old`, which are kept in case of an
    error: `space` tells what happens as long as there is memory. -/
def Parts (env : Env) (r : World × Array × Except Error Unit) (old kept data : List Byte)
    (space : Intake) : Prop :=
  (space = .wrong ∧ r.1.fault = true) ∨
    r.1.fault = false ∧
      (r.2.2 = .ok () ∧ (∃ s, space = .taken s) ∧ arrayContent r.1 r.2.1 = old ++ data ∨
        r.2.2 = .error .missingBuffer ∧ arrayContent r.1 r.2.1 = kept ∧
          (space = .refused ∨ ∃ n size, env.malloc n size = 0))

/-- Parts added to a buffer. -/
theorem appendParts_full (env : Env) (m : Mem Byte) (h : Full w p b) (sound : w.fault = false)
    (le : olen ≤ b.used) (parts : List Iovec) :
    Parts env (appendParts env m olen parts w (some p)) b.content (b.content.take olen)
      (partsData m parts) (b.space.takes parts) := by
  induction parts generalizing w p b with
  | nil =>
      exact .inr ⟨sound, .inl ⟨rfl, ⟨_, rfl⟩,
        (arrayContent_some h.cell).trans (by simp [partsData])⟩⟩
  | cons v vs ih =>
      have bytes : partsData m (v :: vs) = (partData m v).content ++ partsData m vs := rfl
      by_cases empty : v.len = 0
      · unfold appendParts Space.takes
        rw [if_pos empty, if_pos empty, bytes, partData_empty m empty, List.nil_append]
        exact ih h sound le
      have step := arrayAppend_step env h (partData m v) (by rw [partData_len]; exact empty)
      have wrong := appendParts_wrong env m olen vs w (some p) empty
      rcases append : arrayAppend env w (some p) (partData m v) with ⟨w', arr', ret⟩
      rw [append] at step wrong
      unfold appendParts Space.takes
      rw [if_neg empty, if_neg empty, append]
      cases step with
      | failed fault cell content used why =>
          rename_i b'
          rw [partData_len] at why
          have reset : resetUsed w' (some p) olen = w'.store p { b' with used := olen } := by
            simp only [resetUsed, cell]
          refine .inr ⟨?_, .inr ⟨rfl, ?_, ?_⟩⟩
          · simp only [reset]
            exact fault.trans sound
          · simp only [reset]
            rw [arrayContent_some (World.store_self _ _ _), content_take _ (by omega), content]
          · rcases why with refused | null
            · rw [refused]
              exact .inl rfl
            · exact .inr null
      | added fault full content space =>
          rw [partData_len] at space
          have longer : b.content.length ≤ (b.content ++ (partData m v).content).length := by simp
          rw [← content, length_bufferContent, length_bufferContent] at longer
          have rest := ih full (fault.trans sound) (Nat.le_trans le longer)
          have first : b.content.take olen = (b.content ++ (partData m v).content).take olen := by
            rw [List.take_append_of_le_length (by rw [length_bufferContent]; exact le)]
          rw [space, bytes]
          unfold Parts at rest ⊢
          rw [← List.append_assoc, first, ← content]
          exact rest
      | wrong fault space =>
          rw [partData_len] at space
          left
          refine ⟨by rw [space]; rfl, ?_⟩
          have result := wrong fault
          unfold appendParts at result
          rwa [if_neg empty, append] at result

/-- Parts added to no array. -/
theorem appendParts_new (env : Env) (m : Mem Byte) (w : World) (sound : w.fault = false)
    (parts : List Iovec) :
    Parts env (appendParts env m 0 parts w none) [] [] (partsData m parts) (newTakes parts) := by
  induction parts with
  | nil => exact .inr ⟨sound, .inl ⟨rfl, ⟨_, rfl⟩, rfl⟩⟩
  | cons v vs ih =>
      have bytes : partsData m (v :: vs) = (partData m v).content ++ partsData m vs := rfl
      by_cases empty : v.len = 0
      · unfold appendParts newTakes
        rw [if_pos empty, if_pos empty, bytes, partData_empty m empty, List.nil_append]
        exact ih
      have data : (partData m v).len ≠ 0 := by rw [partData_len]; exact empty
      have wrong := appendParts_wrong env m 0 vs w none empty
      rcases bufferAlloc_provided env w (partData m v).len .none with
        ⟨null, w', alloc, cells, fault⟩ | ⟨w', b, alloc, block⟩
      · have append : arrayAppend env w none (partData m v) = (w', none, none) := by
          unfold arrayAppend
          simp only [alloc]
        unfold appendParts
        rw [if_neg empty, append]
        exact .inr ⟨fault.trans sound, .inr ⟨rfl, rfl, .inr ⟨_, _, null⟩⟩⟩
      have cell : w'.cells w.mallocs = some b := by rw [block.cells, World.store_self]
      obtain ⟨w₁, addr, b₁, eq, cell₁, mallocs, content, space, fault⟩ :=
        appendAt_end cell (partData m v) data
      rw [block.used] at eq
      have append : arrayAppend env w none (partData m v) = (w₁, some w.mallocs, some addr) := by
        unfold arrayAppend
        simp only [alloc, eq]
      rw [append] at wrong
      rw [block.fault, sound, Bool.false_or, block.size, block.used, Nat.zero_add,
        partData_len] at fault
      have space' : b₁.space = ⟨blockSize v.len - 64, v.len, 1, false, false⟩ := by
        rw [space]
        simp [Buffer.space, block.size, block.used, block.refs, block.flags, block.raw, Flags.none]
      have bytes' : b₁.content = (partData m v).content := by
        rw [content, Buffer.content, block.used, Mem.read_zero, List.nil_append]
      unfold newTakes renewed
      rw [if_neg empty]
      by_cases header : blockSize v.len < 64
      · rw [if_pos header]
        rw [decide_eq_true header, Bool.true_or] at fault
        exact .inl ⟨rfl, wrong fault⟩
      have alone : ¬ (1 ≠ 1 ∧ blockSize v.len - 64 < 0) := fun h => h.1 rfl
      rw [if_neg header, if_neg alone]
      by_cases small : blockSize v.len - 64 < v.len
      · rw [if_pos small]
        rw [decide_eq_true small, Bool.or_true] at fault
        exact .inl ⟨rfl, wrong fault⟩
      rw [if_neg small, ← space']
      rw [decide_eq_false header, decide_eq_false small] at fault
      have sizes := congrArg Space.size space'
      have useds := congrArg Space.used space'
      simp only [Buffer.space] at sizes useds
      have full : Full w₁ w.mallocs b₁ :=
        ⟨cell₁, by rw [mallocs, block.mallocs]; exact Nat.lt_succ_self _, by omega⟩
      have rest := appendParts_full env m full fault (Nat.zero_le _) vs
      unfold appendParts
      rw [if_neg empty, append, bytes, ← bytes']
      unfold Parts at rest ⊢
      rw [List.nil_append]
      exact rest

/-- Parts added to an array: what becomes of them, or the content is reset. -/
theorem appendParts_spec (env : Env) (m : Mem Byte) {arr : Array} (whole : Whole w arr)
    (sound : w.fault = false) (parts : List Iovec) :
    Parts env (appendParts env m ((arr.bind w.cells).map Buffer.used |>.getD 0) parts w arr)
      (arrayContent w arr) (arrayContent w arr) (partsData m parts) (takes w arr parts) := by
  rcases whole with rfl | ⟨p, b, rfl, cell, made, used⟩
  · exact appendParts_new env m w sound parts
  · have full := appendParts_full env m ⟨cell, made, used⟩ sound (Nat.le_refl _) parts
    rw [List.take_of_length_le (Nat.le_of_eq (length_bufferContent b))] at full
    unfold takes
    rw [arrayContent_some cell]
    simp only [Option.bind_some, cell, Option.map_some, Option.getD_some]
    exact full

/-- What `mpt_message_append` does to a message with further parts. -/
theorem messageAppend_parts (env : Env) (m : Mem Byte) (w : World) (arr : Array) {msg : Message}
    (more : msg.cont ≠ []) : messageAppend env m w arr msg =
      appendParts env m ((arr.bind w.cells).map Buffer.used |>.getD 0)
        (⟨msg.base, msg.used⟩ :: msg.cont.dropLast) w arr := by
  have parts : appendParts env m ((arr.bind w.cells).map Buffer.used |>.getD 0)
      ([⟨msg.base, msg.used⟩] ++ msg.cont.dropLast) w arr = _ :=
    appendParts_append _ [⟨msg.base, msg.used⟩] msg.cont.dropLast w arr
  rw [List.singleton_append] at parts
  rw [parts]
  unfold messageAppend
  simp only
  cases cont : msg.cont with
  | nil => exact absurd cont more
  | cons v vs => rfl

theorem partsData_last (m : Mem Byte) {parts : List Iovec} (some : parts ≠ []) :
    partsData m parts = partsData m parts.dropLast ++ (partData m (parts.getLast some)).content := by
  have split := congrArg (partsData m) (List.dropLast_append_getLast some)
  rw [← split]
  simp [partsData]

/-- Without further parts it only comes to an end if the first one is turned down. -/
theorem appends_single (m : Mem Byte) {arr : Array} (whole : Whole w arr) (sound : w.fault = false)
    {msg : Message} (single : msg.cont = []) :
    (∀ env, Appends env m w arr msg) ↔ takes w arr [⟨msg.base, msg.used⟩] = .refused := by
  have spec := fun env => appendParts_spec env m whole sound [⟨msg.base, msg.used⟩]
  constructor
  · intro appends
    have result := spec granting
    have added := appends granting
    unfold Appends messageAppend at added
    rcases eq : appendParts granting m ((arr.bind w.cells).map Buffer.used |>.getD 0)
      [⟨msg.base, msg.used⟩] w arr with ⟨w', arr', e | _⟩
    · rw [eq] at result
      simp only [eq] at added
      rcases result with ⟨_, fault⟩ | ⟨_, ⟨ok, _⟩ | ⟨_, _, why⟩⟩
      · rw [added.1] at fault
        cases fault
      · cases ok
      · exact why.resolve_right granting_malloc
    · simp only [eq, single] at added
      exact absurd added.1 (by simp [World.crash])
  · intro refused env
    have result := spec env
    unfold Appends messageAppend
    rcases eq : appendParts env m ((arr.bind w.cells).map Buffer.used |>.getD 0)
      [⟨msg.base, msg.used⟩] w arr with ⟨w', arr', ret⟩
    rw [eq, refused] at result
    rcases result with ⟨wrong, _⟩ | ⟨fault, ⟨_, ⟨_, taken⟩, _⟩ | ⟨error, kept, _⟩⟩
    · cases wrong
    · cases taken
    · simp only at error
      subst error
      simp only [eq]
      exact ⟨fault, kept⟩

/-- With further parts, all but the last one are added. -/
theorem appends_parts (m : Mem Byte) {arr : Array} (whole : Whole w arr) (sound : w.fault = false)
    {msg : Message} (more : msg.cont ≠ []) :
    (∀ env, Appends env m w arr msg) ↔
      takes w arr (⟨msg.base, msg.used⟩ :: msg.cont.dropLast) = .refused ∨
        (∃ s, takes w arr (⟨msg.base, msg.used⟩ :: msg.cont.dropLast) = .taken s) ∧
          (msg.cont.getLast more).len = 0 := by
  have spec := fun env =>
    appendParts_spec env m whole sound (⟨msg.base, msg.used⟩ :: msg.cont.dropLast)
  have bytes : partsData m (⟨msg.base, msg.used⟩ :: msg.cont) =
      partsData m (⟨msg.base, msg.used⟩ :: msg.cont.dropLast) ++
        (partData m (msg.cont.getLast more)).content := by
    have rest := partsData_last m more
    unfold partsData at *
    rw [List.flatMap_cons, rest, List.flatMap_cons, List.append_assoc]
  constructor
  · intro appends
    have result := spec granting
    have added := appends granting
    unfold Appends at added
    rw [messageAppend_parts _ _ _ _ more] at added
    rcases eq : appendParts granting m ((arr.bind w.cells).map Buffer.used |>.getD 0)
      (⟨msg.base, msg.used⟩ :: msg.cont.dropLast) w arr with ⟨w', arr', ret⟩
    rw [eq] at result added
    rcases result with ⟨_, fault⟩ | ⟨_, ⟨ok, taken, all⟩ | ⟨_, _, why⟩⟩
    · rw [added.1] at fault
      cases fault
    · right
      simp only at ok all
      subst ok
      have missing := added.2
      simp only [all, bytes, ← List.append_assoc] at missing
      have none := congrArg List.length missing
      simp only [List.length_append, Data.length_content, partData_len] at none
      exact ⟨taken, by omega⟩
    · exact .inl (why.resolve_right granting_malloc)
  · intro condition env
    have result := spec env
    unfold Appends
    rw [messageAppend_parts _ _ _ _ more]
    rcases eq : appendParts env m ((arr.bind w.cells).map Buffer.used |>.getD 0)
      (⟨msg.base, msg.used⟩ :: msg.cont.dropLast) w arr with ⟨w', arr', ret⟩
    rw [eq] at result
    rcases result with ⟨wrong, _⟩ | ⟨fault, ⟨ok, ⟨s, taken⟩, all⟩ | ⟨error, kept, _⟩⟩
    · rw [wrong] at condition
      rcases condition with refused | ⟨⟨s, taken⟩, _⟩
      · cases refused
      · cases taken
    · simp only at ok all
      subst ok
      rw [taken] at condition
      have empty := (condition.resolve_left nofun).2
      rw [bytes, partData_empty m empty, List.append_nil]
      exact ⟨fault, all⟩
    · simp only at error
      subst error
      exact ⟨fault, kept⟩

/-- Whatever `malloc` answers, `mpt_message_append` adds the message or leaves the content if
    and only if one of the parts before the last one is turned down, or these are added and
    the last one is empty. -/
theorem appends_iff (m : Mem Byte) {arr : Array} (whole : Whole w arr) (sound : w.fault = false)
    (msg : Message) :
    (∀ env, Appends env m w arr msg) ↔
      takes w arr (⟨msg.base, msg.used⟩ :: msg.cont.dropLast) = .refused ∨
        (∃ s, takes w arr (⟨msg.base, msg.used⟩ :: msg.cont.dropLast) = .taken s) ∧
          ∃ last, msg.cont.getLast? = some last ∧ last.len = 0 := by
  by_cases more : msg.cont = []
  · rw [appends_single m whole sound more, more]
    simp
  · rw [appends_parts m whole sound more, List.getLast?_eq_some_getLast more]
    simp

theorem appends_example :
    Appends granting (fun a => .ofNat a) .empty none ⟨5, 2, [⟨9, 1⟩, ⟨1, 0⟩]⟩ :=
  (appends_iff _ (.inl rfl) rfl _).mpr
    (.inr ⟨⟨⟨64, 3, 1, false, false⟩, by decide +kernel⟩, ⟨_, rfl, rfl⟩⟩) granting

/-- A message with nothing but a current part, and the last of two parts. -/
theorem last_part_lost :
    (messageAppend granting (fun a => .ofNat a) .empty none ⟨5, 2, []⟩).1.fault = true ∧
      (∃ w arr, messageAppend granting (fun a => .ofNat a) .empty none ⟨5, 2, [⟨9, 1⟩]⟩ =
        (w, arr, .ok ()) ∧ arrayContent w arr = [5, 6]) ∧
      ¬ ∀ env, Appends env (fun a => .ofNat a) .empty none ⟨5, 2, [⟨9, 1⟩]⟩ := by
  refine ⟨by decide, ⟨_, _, rfl, by decide⟩, ?_⟩
  rw [appends_parts _ (.inl rfl) rfl (by simp)]
  rintro (refused | ⟨_, empty⟩)
  · exact absurd refused (by decide +kernel)
  · cases empty

end Mpt.Heap
