import Mpt.Array.Values
import Mpt.Run

/-! # Typed buffers of the C++ interface

The operations take elements away at the start or at the end, take over those of another
buffer and make room for more.  Which calls of the finalizer they make is noted with the
addresses that it gets.
-/

namespace Mpt.Heap

/-- A buffer, and the addresses that its finalizer was called with. -/
structure TypedBuffer where
  buf : Buffer
  ledger : Ledger
  finis : List Nat

namespace TypedBuffer

/-- The loop of finalizer calls `fini(base + i)` for `i` from `start` to `stop`. -/
def finiLoop (t : TypedBuffer) (traits : Traits) (base start stop : Nat) : TypedBuffer :=
  if traits.fini.isSome then
    { t with finis := t.finis ++ (offsets start stop traits.size).map (base + ·) }
  else
    t

/-- The end of `buffer::skip`. -/
def dropFront (t : TypedBuffer) (len : Nat) : TypedBuffer :=
  let post := t.buf.used - len
  { t with buf := { t.buf.relocate 0 len post with used := post } }

/-- `buffer::skip` -/
def skip (t : TypedBuffer) (len : Nat) : TypedBuffer × Bool :=
  if t.buf.used < len then
    (t, false)
  else
    match t.buf.traits with
    | none => (t.dropFront len, true)
    | some traits =>
        if traits.size = 0 ∨ len % traits.size ≠ 0 then
          (t, false)
        else
          ((t.finiLoop traits t.buf.base 0 len).dropFront len, true)

/-- The end of `buffer::trim`. -/
def shorten (t : TypedBuffer) (len : Nat) : TypedBuffer :=
  { t with buf := { t.buf with used := len } }

/-- `buffer::trim` -/
def trim (t : TypedBuffer) (len : Nat) : TypedBuffer × Bool :=
  if t.buf.used < len then
    (t, false)
  else
    let used := t.buf.used
    let len := used - len
    match t.buf.traits with
    | none => (t.shorten len, true)
    | some traits =>
        if traits.size = 0 ∨ used % traits.size ≠ 0 ∨ len % traits.size ≠ 0 then
          (t, false)
        else
          let base := t.buf.base + len
          ((t.finiLoop traits base len used).shorten len, true)

/-- `memcpy` of what another buffer has: its elements come with their bytes. -/
def fill (t : TypedBuffer) (source : Buffer) : TypedBuffer :=
  { t with buf := { t.buf with
      mem := t.buf.mem.write t.buf.base source.content
      elem := t.buf.elem.write 0 (source.elem.read 0 source.used)
      used := source.used } }

/-- `buffer::move` from another buffer, with that buffer behind it. -/
def move (t : TypedBuffer) (source : Buffer) : TypedBuffer × Buffer × Bool :=
  if t.buf.size < source.used then
    (t, source, false)
  else
    match t.trim t.buf.used with
    | (t, false) => (t, source, false)
    | (t, true) => (t.fill source, { source with used := 0 }, true)

/-- `buffer::append` -/
def append (t : TypedBuffer) (len : Nat) : TypedBuffer × Bool :=
  let used := t.buf.used
  let avail := t.buf.size - used
  if avail < len then
    (t, false)
  else
    let misfit := match t.buf.traits with
      | none => false
      | some traits => traits.size = 0 ∨ used % traits.size ≠ 0 ∨ len % traits.size ≠ 0
    if misfit then (t, false) else ({ t with buf := { t.buf with used := used + len } }, true)

/-- `buffer::insert` -/
def insert (env : Env) (t : TypedBuffer) (pos len : Nat) : TypedBuffer × Bool :=
  match bufferInsert env t.ledger t.buf pos len with
  | (l, b, addr) => (⟨b, l, t.finis⟩, addr.isSome)

end TypedBuffer

/-- A call. -/
inductive BufferCall where
  | skip (len : Nat)
  | trim (len : Nat)
  | move (source : Buffer)
  /-- `buffer::move` from the buffer itself -/
  | moveSelf
  | insert (pos len : Nat)
  | append (len : Nat)

/-- The source of a move behind it, and the success of a call. -/
structure BufferResult where
  source : Option Buffer
  ok : Bool

def typedBuffer (env : Env) : Machine TypedBuffer BufferCall BufferResult where
  step t
    | .skip len => ((t.skip len).1, ⟨none, (t.skip len).2⟩)
    | .trim len => ((t.trim len).1, ⟨none, (t.trim len).2⟩)
    | .move source => ((t.move source).1, ⟨some (t.move source).2.1, (t.move source).2.2⟩)
    | .moveSelf => (t, ⟨none, true⟩)
    | .insert pos len => ((t.insert env pos len).1, ⟨none, (t.insert env pos len).2⟩)
    | .append len => ((t.append len).1, ⟨none, (t.append len).2⟩)

/-! ## What the calls are for -/

/-- The addresses of `n` elements from an offset on. -/
def elementsAt (b : Buffer) (size off n : Nat) : List Nat :=
  (List.range n).map fun i => b.base + off + i * size

/-- The content is `l`, and the finalizer was called for the `n` elements from `off` on. -/
def Becomes (size : Nat) (t t' : TypedBuffer) (l : List Byte) (off n : Nat) : Prop :=
  t'.buf.content = l ∧ t'.finis = t.finis ++ elementsAt t.buf size off n

/-- A call removes whole elements, each one finalized, or takes over those of another buffer,
    or keeps all that were there. -/
def Done (size : Nat) (t : TypedBuffer) (call : BufferCall) (t' : TypedBuffer) (r : BufferResult) :
    Prop :=
  let used := t.buf.used
  let content := t.buf.content
  match call with
  | .skip len =>
      if size ∣ len ∧ len ≤ used then Becomes size t t' (content.drop len) 0 (len / size)
      else t' = t
  | .trim len =>
      if size ∣ len ∧ len ≤ used then
        Becomes size t t' (content.take (used - len)) (used - len) (len / size)
      else t' = t
  | .move source =>
      if source.used ≤ t.buf.size then
        Becomes size t t' source.content 0 (used / size) ∧ ∃ b, r.source = some b ∧ b.content = []
      else t' = t ∧ r.source = some source
  | .moveSelf => t' = t
  | .insert pos len =>
      if r.ok then
        ∃ new, new.length = pos - used + len ∧
          Becomes size t t' (content.take pos ++ new ++ content.drop pos) 0 0
      else t' = t
  | .append len =>
      if r.ok then ∃ new, new.length = len ∧ Becomes size t t' (content ++ new) 0 0 else t' = t

/-- The call does this. -/
def Does (env : Env) (size : Nat) (t : TypedBuffer) (call : BufferCall) : Prop :=
  Done size t call ((typedBuffer env).step t call).1 ((typedBuffer env).step t call).2

/-- A buffer of whole elements that have a finalizer. -/
structure WholeElements (traits : Traits) (t : TypedBuffer) : Prop where
  typed : t.buf.traits = .some traits
  fini : traits.fini.isSome
  some : 0 < traits.size
  used : traits.size ∣ t.buf.used
  fits : t.buf.used ≤ t.buf.size

/-- All or nothing is cut off at the end, a source has whole elements, and sizes do not wrap
    around. -/
def Proper (size : Nat) (t : TypedBuffer) : BufferCall → Prop
  | .trim len => len = 0 ∨ t.buf.used ≤ len ∨ ¬ size ∣ len
  | .move source => size ∣ source.used ∨ t.buf.size < source.used
  | .insert pos len =>
      max pos t.buf.used + len < sizeLimit ∨ t.buf.size < (max pos t.buf.used + len) % sizeLimit
  | _ => True

section Calls

variable {traits : Traits} {t : TypedBuffer}

theorem offsets_whole {size start stop : Nat} (positive : 0 < size)
    (whole : size ∣ stop - start) :
    offsets start stop size = (List.range ((stop - start) / size)).map fun i => start + i * size := by
  unfold offsets
  obtain ⟨k, eq⟩ := whole
  have count : (stop - start + (size - 1)) / size = (stop - start) / size := by
    rw [eq, Nat.mul_add_div positive, Nat.div_eq_of_lt (by omega), Nat.mul_div_cancel_left k positive,
      Nat.add_zero]
  rw [count]

theorem misfit_iff (positive : 0 < traits.size) (len : Nat) :
    traits.size = 0 ∨ len % traits.size ≠ 0 ↔ ¬ traits.size ∣ len := by
  rw [Nat.dvd_iff_mod_eq_zero]
  constructor
  · rintro (none | part)
    · omega
    · exact part
  · exact .inr

theorem content_dropFront {len : Nat} (le : len ≤ t.buf.used) :
    (t.dropFront len).buf.content = t.buf.content.drop len := by
  unfold TypedBuffer.dropFront Buffer.relocate Buffer.content
  simp only [Nat.add_zero]
  rw [Mem.read_move_self, Mem.drop_read _ _ _ _ le]

theorem content_shorten {len : Nat} (le : len ≤ t.buf.used) :
    (t.shorten len).buf.content = t.buf.content.take len := by
  unfold TypedBuffer.shorten Buffer.content
  rw [Mem.take_read, Nat.min_eq_left le]

theorem finiLoop_eq (h : WholeElements traits t) (base start stop : Nat) :
    t.finiLoop traits base start stop =
      { t with finis := t.finis ++ (offsets start stop traits.size).map (base + ·) } :=
  if_pos h.fini

/-- Elements are removed at the start. -/
theorem skip_done (h : WholeElements traits t) (len : Nat) :
    if traits.size ∣ len ∧ len ≤ t.buf.used then
      Becomes traits.size t (t.skip len).1 (t.buf.content.drop len) 0 (len / traits.size) ∧
        WholeElements traits (t.skip len).1
    else (t.skip len).1 = t := by
  unfold TypedBuffer.skip
  simp only [h.typed]
  by_cases long : t.buf.used < len
  · rw [if_neg (by omega), if_pos long]
  · rw [if_neg long]
    by_cases part : traits.size ∣ len
    · rw [if_pos ⟨part, by omega⟩, if_neg (by rwa [misfit_iff h.some, not_not]), finiLoop_eq h,
        offsets_whole h.some part]
      refine ⟨⟨content_dropFront (by simpa using long), ?_⟩, h.typed, h.fini, h.some, ?_, ?_⟩
      · simp [TypedBuffer.dropFront, elementsAt, Function.comp_def]
      · exact (Nat.dvd_sub h.used part)
      · exact Nat.le_trans (Nat.sub_le _ _) h.fits
    · rw [if_neg fun both => part both.1, if_pos ((misfit_iff h.some len).mpr part)]

/-- The finalizer gets the right addresses where no element is left or none is removed. -/
theorem trim_done (h : WholeElements traits t) (len : Nat) :
    if traits.size ∣ len ∧ len ≤ t.buf.used then
      (len = 0 ∨ t.buf.used ≤ len →
        Becomes traits.size t (t.trim len).1 (t.buf.content.take (t.buf.used - len))
          (t.buf.used - len) (len / traits.size)) ∧ WholeElements traits (t.trim len).1 ∧ (t.trim len).2 = true
    else (t.trim len).1 = t := by
  unfold TypedBuffer.trim
  simp only [h.typed]
  by_cases long : t.buf.used < len
  · rw [if_neg (by omega), if_pos long]
  · rw [if_neg long]
    by_cases part : traits.size ∣ len
    · have left : traits.size ∣ t.buf.used - len := Nat.dvd_sub h.used part
      have fits : ¬ (traits.size = 0 ∨ t.buf.used % traits.size ≠ 0 ∨
          (t.buf.used - len) % traits.size ≠ 0) := by
        rintro (none | used | rest)
        · exact absurd h.some (by omega)
        · exact used (Nat.mod_eq_zero_of_dvd h.used)
        · exact rest (Nat.mod_eq_zero_of_dvd left)
      have back : t.buf.used - (t.buf.used - len) = len := by omega
      rw [if_pos ⟨part, by omega⟩, if_neg fits, finiLoop_eq h,
        offsets_whole h.some (by rwa [back]), back]
      refine ⟨fun ends => ⟨content_shorten (Nat.sub_le _ _), ?_⟩, ⟨h.typed, h.fini, h.some, left, ?_⟩, rfl⟩
      · rcases ends with rfl | all
        · simp [TypedBuffer.shorten, elementsAt]
        · rw [Nat.sub_eq_zero_of_le all]
          simp [TypedBuffer.shorten, elementsAt, Function.comp_def]
      · exact Nat.le_trans (Nat.sub_le _ _) h.fits
    · have misfit : traits.size = 0 ∨ t.buf.used % traits.size ≠ 0 ∨
          (t.buf.used - len) % traits.size ≠ 0 := by
        refine .inr (.inr fun rest => part ?_)
        have left := Nat.dvd_of_mod_eq_zero rest
        exact (Nat.dvd_sub_iff_right (by omega) h.used).mp left
      rw [if_neg fun both => part both.1, if_pos misfit]

theorem content_fill (t : TypedBuffer) (source : Buffer) : (t.fill source).buf.content = source.content := by
  have self := Mem.read_write_self t.buf.mem t.buf.base source.content
  rwa [length_bufferContent] at self

/-- Another buffer's elements take the place of those before. -/
theorem move_done (h : WholeElements traits t) (source : Buffer)
    (whole : traits.size ∣ source.used ∨ t.buf.size < source.used) :
    if source.used ≤ t.buf.size then
      Becomes traits.size t (t.move source).1 source.content 0 (t.buf.used / traits.size) ∧
        (t.move source).2.1.content = [] ∧ WholeElements traits (t.move source).1
    else (t.move source).1 = t ∧ (t.move source).2.1 = source := by
  unfold TypedBuffer.move
  by_cases large : t.buf.size < source.used
  · rw [if_neg (by omega), if_pos large]
    exact ⟨rfl, rfl⟩
  · rw [if_pos (by omega), if_neg large]
    have trimmed := trim_done h t.buf.used
    rw [if_pos ⟨h.used, Nat.le_refl _⟩, Nat.sub_self] at trimmed
    obtain ⟨removed, left, ok⟩ := trimmed
    obtain ⟨_, finis⟩ := removed (.inr (Nat.le_refl _))
    rcases run : t.trim t.buf.used with ⟨t', ok'⟩
    rw [run] at left ok finis
    obtain rfl : ok' = true := ok
    have size : t'.buf.size = t.buf.size := by
      have same : (t.trim t.buf.used).1.buf.size = t.buf.size := by
        unfold TypedBuffer.trim
        simp only [h.typed]
        split
        · rfl
        · split
          · rfl
          · rw [finiLoop_eq h]
            rfl
      rwa [run] at same
    refine ⟨⟨content_fill t' source, finis⟩, rfl, left.typed, h.fini, h.some, ?_, ?_⟩
    · rcases whole with whole | long
      · exact whole
      · exact absurd long large
    · change source.used ≤ t'.buf.size
      omega

/-- What is appended comes behind the others. -/
theorem append_done (h : WholeElements traits t) (len : Nat) :
    if (t.append len).2 then
      (∃ new, new.length = len ∧ Becomes traits.size t (t.append len).1 (t.buf.content ++ new) 0 0) ∧
        WholeElements traits (t.append len).1
    else (t.append len).1 = t := by
  unfold TypedBuffer.append
  simp only [h.typed, decide_eq_true_eq]
  have fits := h.fits
  by_cases long : t.buf.size - t.buf.used < len
  · rw [if_pos long]
    rfl
  · rw [if_neg long]
    by_cases misfit : traits.size = 0 ∨ t.buf.used % traits.size ≠ 0 ∨ len % traits.size ≠ 0
    · rw [if_pos misfit]
      rfl
    · rw [if_neg misfit]
      refine ⟨⟨t.buf.mem.read (t.buf.base + t.buf.used) len, by simp, ?_, ?_⟩, rfl, h.fini,
        h.some, ?_, ?_⟩
      · exact Mem.read_append _ _ _ _
      · simp [elementsAt]
      · refine Nat.dvd_add h.used (Nat.dvd_of_mod_eq_zero ?_)
        by_contra rest
        exact misfit (.inr (.inr rest))
      · change t.buf.used + len ≤ t.buf.size
        omega

end Calls

section Insert

variable (env : Env) {l : Ledger} {b : Buffer} {traits : Traits}

/-- Initializers write behind the first of their places. -/
theorem initAll_mem (l : Ledger) (b : Buffer) (size : Nat) {p : Nat} (offs : List Nat) (behind : ∀ off ∈ offs, p ≤ off) :
    ∀ i < b.base + p, (initAll env l b size offs).2.1.mem i = b.mem i := by
  induction offs generalizing l b with
  | nil => exact fun _ _ => rfl
  | cons off offs ih =>
      obtain ⟨first, rest⟩ := List.forall_mem_cons.mp behind
      have one : ∀ i < b.base + p, (construct env l b size off).2.1.mem i = b.mem i := by
        intro i below
        unfold construct
        simp only
        split
        · exact Mem.write_below _ _ (by omega)
        · exact Mem.write_below _ _ (by omega)
      have header := construct_header env l b size off
      unfold initAll
      rcases made : construct env l b size off with ⟨l', b', _ | _⟩
      · rw [made] at one
        exact one
      · rw [made] at one header
        intro i below
        exact (ih l' b' rest i (by rw [header.base]; exact below)).trans (one i below)

/-- What `mpt_buffer_insert` does to the gap before the position: nothing before it changes. -/
def fillGap (l : Ledger) (b : Buffer) (traits : Traits) (used pos : Nat) : Ledger × Buffer :=
  let (l, b, used) :=
    if traits.init then
      match initAll env l b traits.size (offsets used pos traits.size) with
      | (l, b, some off) => (l, b, off)
      | (l, b, none) => (l, b, max used pos)
    else
      (l, b, used)
  (l, if used < pos then b.put used (List.replicate (pos - used) 0) else b)

theorem fillGap_traits (l : Ledger) (b : Buffer) (traits : Traits) (used pos : Nat) :
    (fillGap env l b traits used pos).2.traits = b.traits := by
  have put (b' : Buffer) (used' : Nat) :
      (if used' < pos then b'.put used' (List.replicate (pos - used') 0) else b').traits = b'.traits := by
    split
    · rfl
    · rfl
  unfold fillGap
  simp only
  rw [put]
  split
  · have inits := initAll_traits env l b traits.size (offsets used pos traits.size)
    rcases made : initAll env l b traits.size (offsets used pos traits.size) with ⟨l', b', _ | off⟩
    · rwa [made] at inits
    · rwa [made] at inits
  · rfl

/-- There is no gap before a position inside. -/
theorem fillGap_none (l : Ledger) (b : Buffer) (traits : Traits) {used pos : Nat} (le : pos ≤ used) :
    fillGap env l b traits used pos = (l, b) := by
  unfold fillGap
  rw [offsets_none traits.size le]
  simp only [initAll, ite_self, Nat.max_eq_left le]
  rw [if_neg (by omega)]

theorem fillGap_spec (l : Ledger) (b : Buffer) (traits : Traits) (used pos : Nat) :
    SameHeader b (fillGap env l b traits used pos).2 ∧
      ∀ i < b.base + used, (fillGap env l b traits used pos).2.mem i = b.mem i := by
  have put (b' : Buffer) (same : SameHeader b b') (low : ∀ i < b.base + used, b'.mem i = b.mem i)
      (used' : Nat) (le : used ≤ used') :
      SameHeader b (if used' < pos then b'.put used' (List.replicate (pos - used') 0) else b') ∧
        ∀ i < b.base + used,
          (if used' < pos then b'.put used' (List.replicate (pos - used') 0) else b').mem i =
            b.mem i := by
    split
    · refine ⟨⟨same.base, same.size, same.used, same.refs, same.flags⟩, fun i below => ?_⟩
      refine Eq.trans (Mem.write_below _ _ ?_) (low i below)
      rw [same.base]
      omega
    · exact ⟨same, low⟩
  unfold fillGap
  by_cases init : traits.init = true
  · rw [if_pos init]
    have behind : ∀ off ∈ offsets used pos traits.size, used ≤ off :=
      fun off mem => (mem_offsets mem).1
    have low := initAll_mem env l b traits.size _ behind
    obtain ⟨same, inside⟩ := initAll_header env traits.size (offsets used pos traits.size) l b
    rcases made : initAll env l b traits.size (offsets used pos traits.size) with ⟨l', b', _ | off⟩
    · rw [made] at low same
      exact put b' same low _ (Nat.le_max_left _ _)
    · rw [made] at low same inside
      exact put b' same low off (mem_offsets (inside off rfl)).1
  · rw [if_neg init]
    exact put b (.refl b) (fun _ _ => rfl) used (Nat.le_refl _)

/-- The buffer with place at a position. -/
def makePlace (b : Buffer) (pos len : Nat) : Buffer :=
  let total := max pos b.used + len
  let keep := b.used - pos
  let b' := { b with used := total }
  if keep = 0 then b' else b'.relocate (total - keep) pos keep

theorem makePlace_header (b : Buffer) (pos len : Nat) :
    (makePlace b pos len).base = b.base ∧ (makePlace b pos len).size = b.size ∧
      (makePlace b pos len).used = max pos b.used + len ∧ (makePlace b pos len).traits = b.traits := by
  unfold makePlace
  simp only
  split
  · exact ⟨rfl, rfl, rfl, rfl⟩
  · exact ⟨rfl, rfl, rfl, rfl⟩

/-- A call for sizes in range fails, has nothing to do, or makes place and fills the gap. -/
theorem bufferInsert_typed (l : Ledger) (typed : b.traits = some traits) (pos len : Nat)
    (small : max pos b.used + len < sizeLimit) :
    bufferInsert env l b pos len = (l, b, none) ∨
      (pos = 0 ∧ b.used = 0 ∧ len = 0 ∧ bufferInsert env l b pos len = (l, b, some b.base)) ∨
      max pos b.used + len ≤ b.size ∧ traits.size ∣ pos ∧ traits.size ∣ len ∧
        ∃ addr, bufferInsert env l b pos len =
          ((fillGap env l (makePlace b pos len) traits b.used pos).1,
            (fillGap env l (makePlace b pos len) traits b.used pos).2, some addr) := by
  have total := Nat.mod_eq_of_lt small
  have types := (makePlace_header b pos len).2.2.2.trans typed
  unfold bufferInsert
  simp only [total]
  by_cases empty : max pos b.used + len = 0
  · rw [if_pos empty]
    exact .inr (.inl ⟨by omega, by omega, by omega, rfl⟩)
  rw [if_neg empty]
  by_cases large : b.size < max pos b.used + len
  · rw [if_pos large]
    exact .inl rfl
  rw [if_neg large]
  by_cases immutable : b.flags.immutable = true
  · rw [if_pos immutable]
    exact .inl rfl
  rw [if_neg immutable]
  simp only [typed, decide_eq_true_eq]
  by_cases misfit : traits.size = 0 ∨ b.used % traits.size ≠ 0 ∨ pos % traits.size ≠ 0 ∨
      len % traits.size ≠ 0
  · rw [if_pos misfit]
    exact .inl rfl
  rw [if_neg misfit]
  have rests := fun k (rest : k % traits.size ≠ 0 → False) => Nat.dvd_of_mod_eq_zero (not_not.mp rest)
  refine .inr (.inr ⟨by omega, rests pos fun rest => misfit (.inr (.inr (.inl rest))),
    rests len fun rest => misfit (.inr (.inr (.inr rest))), ?_⟩)
  have place : (if b.used - pos = 0 then ({ b with used := max pos b.used + len } : Buffer) else
      ({ b with used := max pos b.used + len } : Buffer).relocate
        (max pos b.used + len - (b.used - pos)) pos (b.used - pos)) = makePlace b pos len := rfl
  simp only [typed] at place
  rw [place, types]
  exact ⟨_, rfl⟩

/-- Place at a position, with the bytes on both sides of it. -/
theorem makePlace_content {b' : Buffer} (pos len : Nat) (base : b'.base = b.base)
    (used : b'.used = max pos b.used + len)
    (low : ∀ i < b.base + b.used, i < b.base + pos ∨ b.used ≤ pos → b'.mem i = b.mem i)
    (high : pos < b.used → b'.mem.read (b.base + (pos + len)) (b.used - pos) =
      b.mem.read (b.base + pos) (b.used - pos)) :
    ∃ new, new.length = pos - b.used + len ∧
      b'.content = b.content.take pos ++ new ++ b.content.drop pos := by
  by_cases inside : pos < b.used
  · refine ⟨b'.mem.read (b.base + pos) len, by rw [Mem.length_read]; omega, ?_⟩
    have parts : max pos b.used + len = pos + len + (b.used - pos) := by omega
    have front : b'.mem.read b.base pos = b.mem.read b.base pos :=
      Mem.read_congr fun i _ below => low i (by omega) (.inl below)
    unfold Buffer.content
    rw [base, used, parts, Mem.read_append, Mem.read_append, high inside, front, Mem.take_read,
      Nat.min_eq_left (by omega), Mem.drop_read _ _ _ _ (by omega)]
  · refine ⟨b'.mem.read (b.base + b.used) (pos - b.used + len), Mem.length_read _ _ _, ?_⟩
    have parts : max pos b.used + len = b.used + (pos - b.used + len) := by omega
    have front : b'.mem.read b.base b.used = b.mem.read b.base b.used :=
      Mem.read_congr fun i _ below => low i below (.inr (by omega))
    rw [List.take_of_length_le (by rw [length_bufferContent]; omega),
      List.drop_of_length_le (by rw [length_bufferContent]; omega), List.append_nil]
    unfold Buffer.content
    rw [base, used, parts, Mem.read_append, front]

/-- The bytes of a buffer with place made and filled. -/
theorem fillGap_content (l : Ledger) (traits : Traits) (pos len : Nat) :
    ∃ new, new.length = pos - b.used + len ∧
      (fillGap env l (makePlace b pos len) traits b.used pos).2.content =
        b.content.take pos ++ new ++ b.content.drop pos := by
  obtain ⟨base, _, used, _⟩ := makePlace_header b pos len
  obtain ⟨same, low⟩ := fillGap_spec env l (makePlace b pos len) traits b.used pos
  refine makePlace_content pos len (same.base.trans base) (same.used.trans used) ?_ ?_
  · intro i below side
    rw [low i (by rw [base]; exact below)]
    unfold makePlace
    simp only
    split
    · rfl
    · rename_i some_
      refine Mem.move_outside _ (.inl ?_)
      simp only
      omega
  · intro inside
    have keep : b.used - pos ≠ 0 := by omega
    have behind : max pos b.used + len - (b.used - pos) = pos + len := by omega
    rw [fillGap_none env l _ traits (Nat.le_of_lt inside)]
    unfold makePlace
    simp only
    rw [if_neg keep, behind]
    exact Mem.read_move_self _ _ _ _

theorem insert_large {t : TypedBuffer} {pos len : Nat}
    (large : t.buf.size < (max pos t.buf.used + len) % sizeLimit) :
    t.insert env pos len = (t, false) := by
  unfold TypedBuffer.insert bufferInsert
  simp only
  rw [if_neg (by omega), if_pos large]
  rfl

/-- Place is made for new elements, before those behind the position. -/
theorem insert_done {t : TypedBuffer} (h : WholeElements traits t) (pos len : Nat)
    (small : max pos t.buf.used + len < sizeLimit ∨
      t.buf.size < (max pos t.buf.used + len) % sizeLimit) :
    if (t.insert env pos len).2 then
      (∃ new, new.length = pos - t.buf.used + len ∧
        Becomes traits.size t (t.insert env pos len).1
          (t.buf.content.take pos ++ new ++ t.buf.content.drop pos) 0 0) ∧
        WholeElements traits (t.insert env pos len).1
    else (t.insert env pos len).1 = t := by
  rcases small with small | large
  swap
  · rw [insert_large env large]
    rfl
  unfold TypedBuffer.insert
  rcases bufferInsert_typed env t.ledger h.typed pos len small with
    eq | ⟨rfl, none, rfl, eq⟩ | ⟨room, start, part, addr, eq⟩
  · rw [eq]
    rfl
  · rw [eq]
    refine ⟨⟨[], by simp [none], by simp, by simp [elementsAt]⟩, h⟩
  · rw [eq]
    obtain ⟨new, length, content⟩ := fillGap_content env (b := t.buf) t.ledger traits pos len
    obtain ⟨base, size, used, types⟩ := makePlace_header t.buf pos len
    obtain ⟨same, _⟩ := fillGap_spec env t.ledger (makePlace t.buf pos len) traits t.buf.used pos
    refine ⟨⟨new, length, content, by simp [elementsAt]⟩, ?_, h.fini, h.some, ?_, ?_⟩
    · exact (fillGap_traits env t.ledger _ traits t.buf.used pos).trans (types.trans h.typed)
    · have eq := same.used.trans used
      simp only
      rw [eq]
      refine Nat.dvd_add ?_ part
      rcases Nat.le_total pos t.buf.used with le | le
      · rw [Nat.max_eq_right le]
        exact h.used
      · rw [Nat.max_eq_left le]
        exact start
    · simp only
      rw [same.used, same.size, used, size]
      exact room

end Insert

section Run

variable (env : Env) {traits : Traits}

theorem call_done {t : TypedBuffer} (h : WholeElements traits t) (call : BufferCall)
    (proper : Proper traits.size t call) :
    Does env traits.size t call ∧ WholeElements traits ((typedBuffer env).step t call).1 := by
  unfold Does
  cases call with
  | skip len =>
      have done := skip_done h len
      unfold Done
      simp only [typedBuffer]
      split at done
      · rename_i fits
        rw [if_pos fits]
        exact done
      · rename_i misfit
        rw [if_neg misfit]
        exact ⟨done, by rw [done]; exact h⟩
  | trim len =>
      have done := trim_done h len
      unfold Done
      simp only [typedBuffer]
      split at done
      · rename_i fits
        rw [if_pos fits]
        obtain ⟨removed, left, _⟩ := done
        refine ⟨removed ?_, left⟩
        rcases proper with none | all | part
        · exact .inl none
        · exact .inr all
        · exact absurd fits.1 part
      · rename_i misfit
        rw [if_neg misfit]
        exact ⟨done, by rw [done]; exact h⟩
  | move source =>
      have done := move_done h source proper
      unfold Done
      simp only [typedBuffer]
      split at done
      · rename_i fits
        rw [if_pos fits]
        obtain ⟨taken, empty, left⟩ := done
        exact ⟨⟨taken, _, rfl, empty⟩, left⟩
      · rename_i large
        rw [if_neg large]
        exact ⟨⟨done.1, congrArg some done.2⟩, by rw [done.1]; exact h⟩
  | moveSelf => exact ⟨rfl, h⟩
  | insert pos len =>
      have done := insert_done env h pos len proper
      unfold Done
      split at done
      · rename_i ok
        simp only [typedBuffer, ok, if_true]
        exact done
      · rename_i no
        simp only [typedBuffer, no]
        exact ⟨done, by rw [done]; exact h⟩
  | append len =>
      have done := append_done h len
      unfold Done
      split at done
      · rename_i ok
        simp only [typedBuffer, ok, if_true]
        exact done
      · rename_i no
        simp only [typedBuffer, no]
        exact ⟨done, by rw [done]; exact h⟩

/-- In every run: elements are removed with one call of the finalizer for each, others keep
    their bytes and order, as long as nothing is cut off before the last elements, sources have
    whole elements and no size wraps around. -/
theorem calls_done (t : TypedBuffer) (traits : Traits) (whole : WholeElements traits t)
    (calls : List BufferCall) (proper : (typedBuffer env).Meets (Proper traits.size) t calls) :
    (typedBuffer env).Meets (Does env traits.size) t calls := by
  induction calls generalizing t with
  | nil => trivial
  | cons call calls ih =>
      obtain ⟨done, left⟩ := call_done env whole call proper.1
      exact ⟨done, ih _ left proper.2⟩

end Run

/-- Three elements of four bytes, in a block with place for four. -/
def threeElements : TypedBuffer :=
  ⟨⟨64, 16, 12, 1, ⟨false, false⟩, some ⟨1, 4, false, some 1⟩, fun i => .ofNat i, fun _ => none⟩,
    ⟨0, []⟩, []⟩

theorem threeElements_whole : WholeElements ⟨1, 4, false, some 1⟩ threeElements :=
  ⟨rfl, rfl, by decide, by decide, by decide⟩

/-- One element is skipped, one appended, and all are cut off. -/
theorem three_done : (typedBuffer granting).Meets (Does granting 4) threeElements
    [.skip 4, .append 4, .trim 12] := by
  refine calls_done granting threeElements ⟨1, 4, false, some 1⟩ threeElements_whole _ ?_
  exact ⟨trivial, trivial, .inr (.inl (by decide)), trivial⟩

/-- The finalizer gets an address behind the block. -/
theorem last_element_missed : ¬ ∀ (env : Env) (t : TypedBuffer) (traits : Traits), WholeElements traits t →
    ∀ calls : List BufferCall, (typedBuffer env).Meets (Does env traits.size) t calls := by
  intro all
  have done : Done 4 threeElements (.trim 4) _ _ :=
    (all granting threeElements _ threeElements_whole [.trim 4]).1
  unfold Done at done
  simp only at done
  rw [if_pos (by decide)] at done
  exact absurd done.2 (by decide)

end Mpt.Heap
