import Mpt.Array.Values

/-! # Text in arrays

`mpt_vprintf` prints behind the content of an array: first into the room that is left, and once
more if the text is longer.  `mpt_array_string` is to end the content with a zero.
-/

namespace Mpt.Heap

/-- What a format makes of its arguments: a text with a length in the range of `int`, or an error
    behind some bytes. -/
inductive Printed where
  | text (l : List Byte) (short : l.length < 2 ^ 31)
  | failed (written : List Byte)

/-- The part of a text that fits in `len` bytes, with a zero. -/
def terminated (len : Nat) (l : List Byte) : List Byte :=
  if len = 0 then [] else l.take (len - 1) ++ [0]

/-- What `vsnprintf` leaves in `len` bytes. -/
def Printed.stored (len : Nat) : Printed → List Byte
  | .text l _ => terminated len l
  | .failed written => written.take len

/-- A `size_t` as `int` -/
def narrow (n : Nat) : Int := (n + 2 ^ 31) % 2 ^ 32 - 2 ^ 31

/-- A length in steps of 64, counted in an `int`; there is none where the count overflows. -/
def roundUp (len : Nat) (rval : Int) : Option Nat :=
  if toSize rval < len then
    if rval + 64 < 2 ^ 31 then roundUp len (rval + 64) else none
  else some (toSize rval)
termination_by (2 ^ 31 - rval).toNat

/-- A length above `n`, in steps of 64. -/
def enlarge (len n : Nat) : Nat :=
  if len ≤ n then enlarge (len + 64) n else len
termination_by n + 1 - len

/-- `vsnprintf` to a slice of the array. -/
def sliceText (env : Env) (w : World) (p used len : Nat) (t : Printed) :
    World × Array × Option (Nat × Buffer) :=
  match arraySlice env w (some p) used len with
  | (w, some q, some _) =>
      match w.cells q with
      | none => (w.crash, some q, none)
      | some b => (poke w q b used (t.stored len), some q, some (q, b.put used (t.stored len)))
  | (w, none, some _) => (w.crash, none, none)
  | (w, arr, none) => (w, arr, none)

/-- The prints of `mpt_vprintf`.  The zero behind a text is the one that `vsnprintf` has left. -/
def printAt (env : Env) (w : World) (p used len : Nat) (t : Printed) :
    World × Array × Except Error Nat :=
  match sliceText env w p used len t with
  | (w, arr, none) => (w, arr, .error .badOperation)
  | (w, _, some (q, b)) =>
      match t with
      | .failed _ => (w.store q { b with used := used }, some q, .error .badValue)
      | .text l _ =>
          if l.length ≤ len then
            (w.store q { b with used := used + l.length }, some q, .ok l.length)
          else
            let len := enlarge len l.length
            match sliceText env w q used len t with
            | (w, arr, none) => (w, arr, .error .badOperation)
            | (w, _, some (q, _)) =>
                -- the used size is the one of the slice
                if 0 < l.length ∧ used + l.length < used + len then
                  (w, some q, .ok l.length)
                else
                  (w, some q, .error .badValue)

/-- `mpt_vprintf`, with the traits of characters -/
def vprintf (env : Env) (traits : Traits) (w : World) (arr : Array) (t : Printed) :
    World × Array × Except Error Nat :=
  match arr with
  | none =>
      match bufferAlloc env w 64 .none with
      | (w, none) => (w, none, .error .badOperation)
      | (w, some p) =>
          match w.cells p with
          | none => (w.crash, some p, .error .badOperation)
          | some b => printAt env (w.store p { b with traits := some traits }) p 0 b.size t
  | some p =>
      match w.cells p with
      | none => (w.crash, some p, .error .badOperation)
      | some b =>
          if b.traits ≠ some traits then
            (w, some p, .error .badType)
          else
            let len := b.size - b.used
            match roundUp len (narrow (len - len % 64)) with
            | none => (w.crash, some p, .error .badOperation)
            | some len => printAt env w p b.used len t

/-- `mpt_array_string`: the traits it keeps are loaded only if it has them. -/
def arrayString (env : Env) (traits : Traits) (static : Option Traits) (w : World) (arr : Array) :
    Option Traits × World × Array × Option Nat :=
  match arr with
  | none => (static, w, none, none)
  | some p =>
      match w.cells p with
      | none => (static, w.crash, some p, none)
      | some b =>
          if static.isNone then
            (none, w, some p, none)
          else if b.traits ≠ some traits then
            (some traits, w, some p, none)
          else if 0 ∈ b.content then
            (some traits, w, some p, some b.base)
          else
            match arraySlice env w (some p) b.used 1 with
            | (w, arr, none) => (some traits, w, arr, none)
            -- the slice is a zero; the address is the one of the buffer before
            | (w, arr, some _) => (some traits, w, arr, some b.base)

/-! ## Calls one after the other -/

inductive Call where
  | print (t : Printed)
  | string

inductive Result where
  | count (n : Except Error Nat)
  | address (a : Option Nat)

/-- The array with the heap it is in, and the traits that are kept between calls. -/
structure TextState where
  static : Option Traits
  world : World
  array : Array

def TextState.call (env : Env) (traits : Traits) (s : TextState) : Call → TextState × Result
  | .print t =>
      let (w, arr, n) := vprintf env traits s.world s.array t
      (⟨s.static, w, arr⟩, .count n)
  | .string =>
      let (static, w, arr, a) := arrayString env traits s.static s.world s.array
      (⟨static, w, arr⟩, .address a)

/-- The content that a result stands for. -/
def Call.after (content : List Byte) : Call → Result → List Byte
  | .print (.text l _), .count (.ok _) => content ++ l
  | _, _ => content

/-- The text is appended and its length returned, or the content is as it was; a string is the
    content with a zero in it or behind it. -/
def Conforms (traits : Traits) (content : List Byte) (c : Call) (out : TextState × Result) : Prop :=
  match c with
  | .print t =>
      Carries traits out.1.world out.1.array (c.after content out.2) ∧
        ∃ n, out.2 = .count n ∧ ∀ k, n = .ok k → ∃ l short, t = .text l short ∧ k = l.length
  | .string =>
      ∃ p b rest, out.1.array = some p ∧ out.1.world.cells p = some b ∧
        out.2 = .address (some b.base) ∧ b.content = content ++ rest ∧ 0 ∈ b.content

/-- The room has the text and a zero, or the text ends with the zero. -/
def Roomy (space : Nat) : Printed → Prop
  | .text l _ => l.length < space ∨ l.length = space ∧ l.getLast?.getD 0 = 0
  | .failed _ => True

/-- The room behind the content, in steps of 64 bytes that can be counted, has the text with its
    zero; or the content may not be copied. -/
def TextState.Ready (s : TextState) : Call → Prop
  | .print t =>
      match s.array with
      | none => Roomy 64 t
      | some p => ∀ b, s.world.cells p = some b → b.size - b.used ≤ 2 ^ 31 - 64 ∧
          (b.pinned ∨ Roomy ((b.size - b.used + 63) / 64 * 64) t)
  | .string => False

/-- The states of the runs in which every call is ready, with the content as it should be. -/
inductive Runs (env : Env) (traits : Traits) (s : TextState) (content : List Byte) :
    TextState → List Byte → Prop where
  | start : Runs env traits s content s content
  | step {s' : TextState} {content' : List Byte} (c : Call) (before : Runs env traits s content s' content')
      (ready : s'.Ready c) :
      Runs env traits s content (s'.call env traits c).1
        (c.after content' (s'.call env traits c).2)

/-- No object takes more than half of the address space. -/
def Bounded (env : Env) : Prop := ∀ n size, longMax < size → env.malloc n size = 0

/-- Characters -/
structure CharTraits (traits : Traits) : Prop where
  size : traits.size = 1
  plain : traits.init = false

/-- A buffer that may be written by its only holder. -/
structure Open (traits : Traits) (w : World) (q : Nat) (b : Buffer) (content : List Byte)
    (room : Nat) : Prop extends Elements traits w q b where
  content : b.content = content
  single : b.refs = 1
  writable : b.flags.immutable = false
  room : room ≤ b.size
  bound : b.size ≤ longMax

section

variable {traits : Traits} {env : Env} {w : World} {p total len : Nat} {b : Buffer}
  {content : List Byte} {t : Printed}

theorem malloc_of_alloc {w₁ : World} {n len : Nat} {flags : Flags}
    (alloc : bufferAlloc env w len flags = (w₁, some n)) :
    env.malloc w.mallocs (blockSize len) ≠ 0 := by
  intro null
  unfold bufferAlloc at alloc
  simp only [null, if_true] at alloc
  cases alloc

/-- A new block gets the elements as they are. -/
theorem Elements.renewed (h : Elements traits w p b) (free : ¬ b.pinned)
    (part : total % traits.size = 0) (le : b.used ≤ total) (small : total + 192 ≤ sizeLimit)
    (renew : ¬ b.kept total) {w₁ : World} {next : Buffer}
    (alloc : bufferAlloc env w (Mpt.Heap.detachSize b.traits total)
      { b.flags with immutable := false } = (w₁, some w.mallocs))
    (block : Provided w w₁ (Mpt.Heap.detachSize b.traits total)
      { b.flags with immutable := false } next) :
    ∃ w' b', bufferDetach env w p total = (w', some w.mallocs) ∧
      w'.cells w.mallocs = some b' ∧ b'.size = next.size ∧ b'.traits = b.traits ∧
      b'.content = b.content ∧ w'.mallocs = w.mallocs + 1 := by
  have size := h.detachSize part
  have room := block.size
  have blocks := blockSize_eq small
  have fits := le_roomFor total
  by_cases one : b.refs < 2
  · have made : w₁.cells w.mallocs = some next := by rw [block.cells, World.store_self]
    have refs := h.held.refs
    have lower : refcountLower b.refs = (0, true) := by
      rw [show b.refs = 1 by omega]
      rfl
    have other : w.mallocs ≠ p := Nat.ne_of_gt h.held.made
    have taken : b.taken total = b.used := by
      unfold Buffer.taken
      rw [if_neg (by omega)]
    have all := shrink_taken w₁.ledger one (Mpt.Heap.detachSize b.traits total)
    rw [size, taken] at all
    have moved := detach_moved h.held.cell h.notZero renew free alloc made lower
    rw [size] at moved
    rcases shrunk : shrink w₁.ledger b total with ⟨l, k⟩
    rw [shrunk] at moved all
    simp only at moved all
    subst all
    refine ⟨_, moveContent { next with traits := b.traits } b b.used, moved, ?_, rfl, rfl, ?_, ?_⟩
    · split <;> exact (World.free_ne _ other).trans (World.store_self _ _ _)
    · have read := Mem.read_write_self next.mem next.base b.content
      rw [length_bufferContent] at read
      exact read
    · split <;> exact block.mallocs
  · have many : 2 ≤ b.refs := Nat.le_of_not_lt one
    rw [size, blocks] at room
    obtain ⟨l, b', k, set, kept, content⟩ := copy_whole env w₁.ledger
      (b := { next with traits := b.traits }) (c := b.content) block.used
      (by simp only [length_bufferContent]; omega) (by simp only [length_bufferContent]; omega)
      (by
        intro traits' typed
        have typed : b.traits = some traits' := typed
        rw [h.typed] at typed
        cases typed
        rw [length_bufferContent]
        exact ⟨Nat.pos_iff_ne_zero.mp h.sized, h.whole⟩)
    have typed := bufferSet_traits env w₁.ledger { next with traits := b.traits } b.traits 0
      (.bytes b.content)
    have set : bufferSet env w₁.ledger { next with traits := b.traits } b.traits 0
      (.bytes b.content) = (l, b', .ok k) := set
    have eq := copied_eq h.held h.notZero renew free alloc block many
    rw [set] at eq typed
    refine ⟨_, b', eq, World.store_self _ _ _, kept.size, typed, content ?_, block.mallocs⟩
    intro traits' same
    have same : b.traits = some traits' := same
    rw [h.typed] at same
    cases same
    exact h.plain

/-- Detaching leaves the elements as they are, with or without an answer. -/
theorem Elements.detaches (bounded : Bounded env) (h : Elements traits w p b)
    (bound : b.size ≤ longMax) (part : total % traits.size = 0) (le : b.used ≤ total)
    (small : total + 192 ≤ sizeLimit) :
    (∃ w', bufferDetach env w p total = (w', none) ∧ Elements traits w' p b) ∨
      ¬ b.pinned ∧ ∃ w' q b', bufferDetach env w p total = (w', some q) ∧
        Open traits w' q b' b.content total := by
  obtain ⟨all, same⟩ := detached env h.held (h.detachable part le small)
  have count := length_bufferContent b
  by_cases keep : b.kept total
  · rw [detach_kept h.held.cell h.notZero keep] at all ⊢
    obtain ⟨b', got⟩ := all.all p rfl
    obtain rfl := Option.some.inj (h.held.cell.symm.trans got.cell)
    exact .inr ⟨not_pinned (Nat.le_of_eq got.single), w, p, b, rfl,
      ⟨h, rfl, got.single, got.writable, got.room, bound⟩⟩
  by_cases pinned : b.pinned
  · rw [detach_pinned h.held.cell h.notZero keep pinned]
    exact .inl ⟨w, rfl, h⟩
  have cases := bufferAlloc_cases env w (Mpt.Heap.detachSize b.traits total)
    { b.flags with immutable := false }
  rcases bufferAlloc_provided env w (Mpt.Heap.detachSize b.traits total)
      { b.flags with immutable := false } with ⟨-, w₁, alloc, -⟩ | ⟨w₁, next, alloc, block⟩
  · have out := detach_refused h.held.cell h.notZero keep pinned alloc
    rw [out] at all same
    rw [alloc] at cases
    refine .inl ⟨w₁, out, ⟨same rfl, ?_, all.sound, h.held.refs, h.held.used⟩, h.typed, h.sized,
      h.plain, h.whole⟩
    cases cases with
    | refused cells mallocs ledger refused =>
        have made := h.held.made
        omega
  · obtain ⟨w', b', out, cell, size, typed, same, mallocs⟩ :=
      h.renewed pinned part le small keep alloc block
    rw [out] at all
    obtain ⟨b'', got⟩ := all.all _ rfl
    obtain rfl := Option.some.inj (cell.symm.trans got.cell)
    have used := congrArg List.length same
    rw [length_bufferContent, length_bufferContent] at used
    have given := malloc_of_alloc alloc
    have limit : ¬ longMax < blockSize (Mpt.Heap.detachSize b.traits total) :=
      fun large => given (bounded _ _ large)
    have blocks := block.size
    refine .inr ⟨pinned, w', w.mallocs, b', out, ⟨⟨⟨cell, ?_, all.sound, ?_, got.used⟩,
      typed.trans h.typed, h.sized, h.plain, used ▸ h.whole⟩, same, got.single, got.writable,
      got.room, ?_⟩⟩
    · omega
    · rw [got.single]
      exact Nat.one_pos
    · omega

/-- Zeros are put behind the content. -/
theorem sliceAt_open (env : Env) (h : Open traits w p b content (b.used + len)) (part : len % traits.size = 0) :
    ∃ w' b', sliceAt env w p b.used b.used (b.used + len) = (w', some p, some (b.base + b.used)) ∧
      b'.used = b.used + len ∧
      Open traits w' p b' (content ++ List.replicate len 0) (b.used + len) := by
  have room := h.room
  have bound := h.bound
  by_cases more : 0 < len
  · have insert : bufferInsert env w.ledger b b.used len =
        (w.ledger, { b with used := b.used + len }, some (b.base + b.used)) := by
      have total : (max b.used b.used + len) % sizeLimit = b.used + len := by
        unfold longMax sizeLimit at *
        rw [Nat.max_self]
        omega
      have whole := h.whole
      unfold bufferInsert
      simp only [total, h.writable, h.typed, h.plain, Nat.sub_self, Nat.lt_irrefl, if_true, if_false,
        Bool.false_eq_true]
      rw [if_neg (by omega), if_neg (by omega), if_neg]
      simpa [whole, part] using Nat.pos_iff_ne_zero.mp h.sized
    have put := content_put b (List.replicate len 0)
    rw [List.length_replicate, h.content] at put
    refine ⟨poke w p { b with used := b.used + len } b.used (List.replicate len 0),
      ({ b with used := b.used + len } : Buffer).put b.used (List.replicate len 0), ?_, rfl,
      ⟨⟨?_, ?_, ?_, h.held.refs, room⟩, h.typed, h.sized, h.plain, ?_⟩, put, h.single, h.writable,
      room, bound⟩
    · unfold sliceAt
      simp only [h.held.cell]
      rw [if_pos (by omega), Nat.add_sub_cancel_left, insert]
      simp only [h.typed, h.plain, Bool.false_eq_true, if_false]
    · exact poke_cells _ _ _ _ _
    · unfold poke
      split <;> exact h.held.made
    · unfold poke
      rw [if_neg (by rw [List.length_replicate]; exact Nat.not_lt.mpr room)]
      exact h.held.sound
    · have whole := h.whole
      simp only [Buffer.put]
      rw [Nat.add_mod, whole, part]
      rfl
  · obtain rfl : len = 0 := Nat.eq_zero_of_not_pos more
    refine ⟨w, b, ?_, rfl, ?_⟩
    · unfold sliceAt
      simp only [h.held.cell]
      rw [if_neg (by omega)]
    · rw [List.replicate_zero, List.append_nil]
      exact h

/-- A slice behind the content: zeros in a buffer of its own, or everything as it was. -/
theorem arraySlice_open (bounded : Bounded env) (char : CharTraits traits)
    (h : Elements traits w p b) (bound : b.size ≤ longMax) (small : b.used + len + 192 ≤ sizeLimit) :
    (∃ w', arraySlice env w (some p) b.used len = (w', some p, none) ∧ Elements traits w' p b) ∨
      ¬ b.pinned ∧ ∃ w' q b' a, arraySlice env w (some p) b.used len = (w', some q, some a) ∧
        b'.used = b.used + len ∧
        Open traits w' q b' (b.content ++ List.replicate len 0) (b.used + len) := by
  have part : len % traits.size = 0 := by rw [char.size, Nat.mod_one]
  have whole : (b.used + len) % traits.size = 0 := by rw [char.size, Nat.mod_one]
  have eq : arraySlice env w (some p) b.used len =
      if b.size < b.used + len ∨ b.flags.immutable ∨ b.shared then
        match bufferDetach env w p (b.used + len) with
        | (w, none) => (w, some p, none)
        | (w, some p) => sliceAt env w p b.used b.used (b.used + len)
      else sliceAt env w p b.used b.used (b.used + len) := by
    unfold arraySlice
    simp only [h.held.cell, h.typed, char.size, Nat.mod_one]
    rewrite [if_neg (by omega), if_neg (by simp), Nat.max_eq_right (Nat.le_add_right _ _)]
    rfl
  rw [eq]
  split
  · rcases h.detaches bounded bound whole (Nat.le_add_right _ _) small with
      ⟨w', out, same⟩ | ⟨free, w', q, b', out, owned⟩
    · rw [out]
      exact .inl ⟨w', rfl, same⟩
    · rw [out]
      have used := congrArg List.length owned.content
      rw [length_bufferContent, length_bufferContent] at used
      rw [← used] at owned ⊢
      obtain ⟨w'', b'', slice, long, done⟩ := sliceAt_open env owned part
      exact .inr ⟨free, w'', q, b'', _, slice, long, done⟩
  · rename_i fits
    have refs := h.held.refs
    have alone : b.shared = false := by
      cases shared : b.shared
      · rfl
      · exact absurd (.inr (.inr shared)) fits
    have single : b.refs = 1 := by
      have few : ¬ 1 < b.refs := of_decide_eq_false alone
      omega
    have writable : b.flags.immutable = false := by
      cases immutable : b.flags.immutable
      · rfl
      · exact absurd (.inr (.inl immutable)) fits
    have owned : Open traits w p b b.content (b.used + len) :=
      ⟨h, rfl, single, writable, by omega, bound⟩
    obtain ⟨w', b', slice, long, done⟩ := sliceAt_open env owned part
    exact .inr ⟨not_pinned (by omega), w', p, b', _, slice, long, done⟩

theorem length_terminated (len : Nat) (l : List Byte) : (terminated len l).length ≤ len := by
  unfold terminated
  split
  · exact Nat.zero_le _
  · rw [List.length_append, List.length_take, List.length_singleton]
    omega

theorem length_stored (t : Printed) (len : Nat) : (t.stored len).length ≤ len := by
  cases t with
  | text l short => exact length_terminated len l
  | failed written =>
      exact Nat.le_trans (Nat.le_of_eq List.length_take) (Nat.min_le_left _ _)

/-- Where there is room, the text is stored as it is. -/
theorem terminated_roomy {l : List Byte}
    (roomy : l.length < len ∨ l.length = len ∧ l.getLast?.getD 0 = 0) :
    l.length ≤ (terminated len l).length ∧ (terminated len l).take l.length = l := by
  rcases roomy with less | ⟨same, zero⟩
  · have stored : terminated len l = l ++ [0] := by
      unfold terminated
      rw [if_neg (by omega), List.take_of_length_le (by omega)]
    rw [stored, List.length_append, List.take_left' rfl]
    exact ⟨Nat.le_add_right _ _, rfl⟩
  · have stored : terminated len l = l := by
      unfold terminated
      rcases List.eq_nil_or_concat l with rfl | ⟨front, last, rfl⟩
      · rw [if_pos (show len = 0 from same.symm)]
      · have zero : last = 0 := by simpa using zero
        rw [List.concat_eq_append] at same ⊢
        rw [List.length_append, List.length_singleton] at same
        rw [if_neg (by omega), ← same, Nat.add_sub_cancel, List.take_left' rfl, zero]
    rw [stored]
    exact ⟨Nat.le_refl _, List.take_length⟩

/-- A buffer in which the slice behind the content has been printed to. -/
structure Stored (traits : Traits) (w : World) (q : Nat) (b : Buffer) (content stored : List Byte) :
    Prop where
  bound : b.size ≤ longMax
  used : ∀ n, n ≤ stored.length → Elements traits (w.store q { b with used := content.length + n }) q
    { b with used := content.length + n }
  content : ∀ n, n ≤ stored.length →
    ({ b with used := content.length + n } : Buffer).content = content ++ stored.take n

theorem Open.stored (char : CharTraits traits) (h : Open traits w p b (content ++ List.replicate len 0)
    (content.length + len)) (l : List Byte) (short : l.length ≤ len) :
    (poke w p b content.length l).cells p = some (b.put content.length l) ∧
      Stored traits (poke w p b content.length l) p (b.put content.length l) content l := by
  have room := h.room
  have inside : ¬ b.size < content.length + l.length := by omega
  refine ⟨poke_cells _ _ _ _ _, h.bound, fun n le => ⟨⟨World.store_self _ _ _, ?_, ?_, h.held.refs, ?_⟩,
    h.typed, h.sized, h.plain, by rw [char.size, Nat.mod_one]⟩, ?_⟩
  · unfold poke
    rw [if_neg inside]
    exact h.held.made
  · unfold poke
    rw [if_neg inside]
    exact h.held.sound
  · simp only [Buffer.put]
    omega
  · intro n le
    have front : b.mem.read b.base content.length = content := by
      have all := congrArg (List.take content.length) h.content
      rw [List.take_left' rfl] at all
      simp only [Buffer.content] at all
      have used := congrArg List.length h.content
      rw [length_bufferContent, List.length_append] at used
      rw [Mem.take_read, Nat.min_eq_left (by omega)] at all
      exact all
    have behind := congrArg (List.take n) (Mem.read_write_self b.mem (b.base + content.length) l)
    rw [Mem.take_read, Nat.min_eq_left le] at behind
    simp only [Buffer.content, Buffer.put]
    rw [Mem.read_append, behind, Mem.read_write_disjoint _ _ (.inl (Nat.le_refl _)), front]

theorem sliceText_stored (bounded : Bounded env) (char : CharTraits traits)
    (h : Elements traits w p b) (bound : b.size ≤ longMax) (small : b.used + len + 192 ≤ sizeLimit) :
    (∃ w', sliceText env w p b.used len t = (w', some p, none) ∧ Elements traits w' p b) ∨
      ¬ b.pinned ∧ ∃ w' q b', sliceText env w p b.used len t = (w', some q, some (q, b')) ∧
        Stored traits w' q b' b.content (t.stored len) := by
  have count := length_bufferContent b
  unfold sliceText
  rcases arraySlice_open bounded char h bound small with
    ⟨w', out, same⟩ | ⟨free, w', q, b', a, out, long, owned⟩
  · rw [out]
    exact .inl ⟨w', rfl, same⟩
  · rw [out]
    simp only [owned.held.cell]
    rw [← count] at owned ⊢
    exact .inr ⟨free, _, _, _, rfl, (owned.stored char _ (length_stored t len)).2⟩

/-- What a print is to be. -/
structure Prints (traits : Traits) (content : List Byte) (t : Printed)
    (out : World × Array × Except Error Nat) : Prop where
  carries : Carries traits out.1 out.2.1 ((Call.print t).after content (.count out.2.2))
  count : ∀ k, out.2.2 = .ok k → ∃ l short, t = .text l short ∧ k = l.length
  bound : ∀ p b, out.2.1 = some p → out.1.cells p = some b → b.size ≤ longMax

theorem prints_failed {e : Error} (h : Elements traits w p b) (bound : b.size ≤ longMax) :
    Prints traits b.content t (w, some p, .error e) := by
  refine ⟨?_, nofun, ?_⟩
  · have same : (Call.print t).after b.content (.count (.error e)) = b.content := by
      cases t <;> rfl
    rw [same]
    exact ⟨h.held.sound, b, h, rfl⟩
  · intro p' b' array cell
    cases array
    rw [← Option.some.inj (h.held.cell.symm.trans cell)]
    exact bound

/-- A print to a room that has the text. -/
theorem printAt_prints (bounded : Bounded env) (char : CharTraits traits)
    (h : Elements traits w p b) (bound : b.size ≤ longMax) (small : b.used + len + 192 ≤ sizeLimit)
    (ready : b.pinned ∨ Roomy len t) : Prints traits b.content t (printAt env w p b.used len t) := by
  have count := length_bufferContent b
  unfold printAt
  rcases sliceText_stored (t := t) bounded char h bound small with
    ⟨w', out, same⟩ | ⟨free, w', q, b', out, stored⟩
  · rw [out]
    exact prints_failed same bound
  · rw [out]
    cases t with
    | failed written =>
        have used := stored.used 0 (Nat.zero_le _)
        have content := stored.content 0 (Nat.zero_le _)
        rw [List.take_zero, List.append_nil] at content
        simp only [Nat.add_zero, count] at used content
        simp only
        have done := prints_failed (t := .failed written) (e := .badValue) used stored.bound
        rw [content] at done
        exact done
    | text l short =>
        have roomy := ready.resolve_left free
        have fits : l.length ≤ len := roomy.elim Nat.le_of_lt fun full => Nat.le_of_eq full.1
        obtain ⟨all, text⟩ := terminated_roomy roomy
        have used := stored.used l.length all
        have content := (stored.content l.length all).trans (congrArg _ text)
        rw [count] at used content
        simp only
        rw [if_pos fits]
        refine ⟨⟨used.held.sound, _, used, content⟩, ?_, ?_⟩
        · intro k ok
          cases ok
          exact ⟨l, short, rfl, rfl⟩
        · intro p' b'' array cell
          cases array
          rw [World.store_self] at cell
          rw [← Option.some.inj cell]
          exact stored.bound

theorem roundUp_eq {len : Nat} (few : len ≤ 2 ^ 31 - 64) :
    roundUp len (narrow (len - len % 64)) = some ((len + 63) / 64 * 64) := by
  have start : narrow (len - len % 64) = (len - len % 64 : Nat) := by
    unfold narrow
    omega
  rw [start]
  by_cases part : len % 64 = 0
  · have size : toSize (len - len % 64 : Nat) = (len + 63) / 64 * 64 := by
      unfold toSize
      omega
    rw [roundUp, if_neg (by omega), size]
  · have size : toSize (len - len % 64 : Nat) = len - len % 64 := by
      unfold toSize
      omega
    have next : toSize ((len - len % 64 : Nat) + 64) = (len + 63) / 64 * 64 := by
      unfold toSize
      omega
    rw [roundUp, if_pos (by omega), if_pos (by omega), roundUp, if_neg (by omega), next]

/-- The array has this content, in a buffer that is no larger than an object can be. -/
structure TextState.Valid (traits : Traits) (s : TextState) (content : List Byte) : Prop where
  static : s.static = none
  carries : Carries traits s.world s.array content
  bound : ∀ p b, s.array = some p → s.world.cells p = some b → b.size ≤ longMax

theorem vprintf_prints (bounded : Bounded env) (char : CharTraits traits) {s : TextState}
    (valid : s.Valid traits content) (ready : s.Ready (.print t)) :
    Prints traits content t (vprintf env traits s.world s.array t) := by
  obtain ⟨static, w, arr⟩ := s
  have sound : w.fault = false := valid.carries.1
  cases arr with
  | none =>
      have empty : content = [] := valid.carries.2
      subst empty
      unfold vprintf
      rcases bufferAlloc_provided env w 64 .none with ⟨-, w₁, alloc, -, fault⟩ | ⟨w₁, b, alloc, block⟩
      · rw [alloc]
        refine ⟨⟨fault.trans sound, ?_⟩, nofun, nofun⟩
        cases t <;> rfl
      · have made : w₁.cells w.mallocs = some b := by rw [block.cells, World.store_self]
        have size : b.size = 64 := block.size.trans (by decide)
        have fault : w₁.fault = false := by
          rw [block.fault, sound]
          decide
        have elements : Elements traits (w₁.store w.mallocs { b with traits := some traits }) w.mallocs
            { b with traits := some traits } :=
          ⟨⟨World.store_self _ _ _, by rw [World.store, block.mallocs]; exact Nat.lt_succ_self _, fault,
            by rw [block.refs]; exact Nat.one_pos, by rw [block.used]; exact Nat.zero_le _⟩, rfl,
            by rw [char.size]; exact Nat.one_pos, char.plain, by rw [char.size, Nat.mod_one]⟩
        have none : ({ b with traits := some traits } : Buffer).content = [] := by
          simp only [Buffer.content, block.used, Mem.read_zero]
        have done := printAt_prints (t := t) bounded char elements (by rw [size]; decide)
          (show b.used + b.size + 192 ≤ sizeLimit by rw [block.used, size]; decide)
          (.inr (by rw [size]; exact ready))
        rw [none] at done
        simp only [alloc, made]
        exact (congrArg (fun n => Prints traits [] t (printAt env _ w.mallocs n b.size t)) block.used).mp
          done
  | some p =>
      obtain ⟨b, elements, same⟩ := valid.carries.2
      subst same
      have cell : w.cells p = some b := elements.held.cell
      have bound : b.size ≤ longMax := valid.bound p b rfl cell
      obtain ⟨few, roomy⟩ := ready b cell
      have used := elements.held.used
      have done := printAt_prints (t := t) bounded char elements bound
        (by unfold longMax sizeLimit at *; omega) roomy
      unfold vprintf
      simp only [cell]
      rw [if_neg (not_not_intro elements.typed), roundUp_eq few]
      exact done

theorem arrayString_none (env : Env) (traits : Traits) (w : World) (arr : Array) :
    (arrayString env traits none w arr).1 = none ∧ (arrayString env traits none w arr).2.2.2 = none := by
  unfold arrayString
  cases arr with
  | none => exact ⟨rfl, rfl⟩
  | some p => cases cell : w.cells p <;> simp [cell]

/-- The call does what it is to do, and the next one can. -/
theorem call_valid (bounded : Bounded env) (char : CharTraits traits) {s : TextState} {c : Call}
    (valid : s.Valid traits content) (ready : s.Ready c) :
    Conforms traits content c (s.call env traits c) ∧
      (s.call env traits c).1.Valid traits (c.after content (s.call env traits c).2) := by
  cases c with
  | print t =>
      have prints := vprintf_prints bounded char valid ready
      exact ⟨⟨prints.carries, _, rfl, prints.count⟩, valid.static, prints.carries, prints.bound⟩
  | string => exact absurd ready id

/-- In every run of calls with room, each print appends its text and returns the length of it, or
    leaves the content as it is.  No call is to have a string. -/
theorem texts_printed (bounded : Bounded env) (char : CharTraits traits) {s s' : TextState}
    {content' : List Byte} (valid : s.Valid traits content)
    (runs : Runs env traits s content s' content') :
    Carries traits s'.world s'.array content' ∧
      (∀ c, s'.Ready c → Conforms traits content' c (s'.call env traits c)) ∧
      ¬ Conforms traits content' .string (s'.call env traits .string) := by
  have all : s'.Valid traits content' := by
    induction runs with
    | start => exact valid
    | step c before ready before_valid => exact (call_valid bounded char before_valid ready).2
  refine ⟨all.carries, fun c ready => (call_valid bounded char all ready).1, ?_⟩
  rintro ⟨p, b, rest, -, -, address, -⟩
  have none := (arrayString_none env traits s'.world s'.array).2
  unfold TextState.call at address
  rw [all.static] at address
  simp only [none] at address
  cases address

end

/-- Memory for what an object can be. -/
def limited : Env := { granting with malloc := fun n size => if longMax < size then 0 else granting.malloc n size }

theorem limited_bounded : Bounded limited := fun _ _ large => if_pos large

def charTraits : Traits := ⟨0, 1, false, none⟩

theorem charTraits_char : CharTraits charTraits := ⟨rfl, rfl⟩

theorem empty_valid : TextState.Valid charTraits ⟨none, .empty, none⟩ [] :=
  ⟨rfl, ⟨rfl, rfl⟩, nofun⟩

theorem hash_printed :
    Carries charTraits
      ((⟨none, .empty, none⟩ : TextState).call limited charTraits (.print (.text [35] (by decide)))).1.world
      ((⟨none, .empty, none⟩ : TextState).call limited charTraits (.print (.text [35] (by decide)))).1.array
      ((Call.print (.text [35] (by decide))).after []
        ((⟨none, .empty, none⟩ : TextState).call limited charTraits
          (.print (.text [35] (by decide)))).2) :=
  (texts_printed limited_bounded charTraits_char empty_valid
    (.step (.print (.text [35] (by decide))) .start (.inl (by decide)))).1

/-- A text of the size of the new buffer. -/
theorem last_lost :
    ¬ ∀ c, Conforms charTraits [] c ((⟨none, .empty, none⟩ : TextState).call limited charTraits c) := by
  intro all
  let full : Call := .print (.text (List.replicate 64 35) (by decide))
  obtain ⟨⟨-, carries⟩, -⟩ := all full
  have array : ((⟨none, .empty, none⟩ : TextState).call limited charTraits full).1.array = some 0 := by
    decide +kernel
  have text : full.after [] ((⟨none, .empty, none⟩ : TextState).call limited charTraits full).2 =
      List.replicate 64 35 := by
    decide +kernel
  have last : (((⟨none, .empty, none⟩ : TextState).call limited charTraits full).1.world.cells 0).map
      (fun b => b.content.getLast?) = some (some 0) := by
    decide +kernel
  rw [array, text] at carries
  obtain ⟨b, elements, content⟩ := carries
  rw [elements.held.cell, Option.map_some, content] at last
  exact absurd last (by decide)

end Mpt.Heap
