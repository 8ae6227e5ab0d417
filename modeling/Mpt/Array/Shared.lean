import Mpt.Array.Detach
import Mpt.Array.Edit

/-! # Arrays that share their bytes

Any number of arrays can have references to one buffer.  An edit of shared bytes is made on a
copy that the array has to itself, so that every array has the bytes that its own history
gives it; a buffer is there exactly as long as an array has it.  An append that has the space,
and a cut, do not look for others, and are left out where there are any.
-/

namespace Mpt.Heap

variable {env : Env} {w w₁ : World} {p q : Nat} {b b₁ : Buffer} {e : Edit}

/-! ## What an edit leaves alone -/

/-- Only the buffer at `p` changes. -/
structure Local (w : World) (p : Nat) (r : World × Array × Option Nat) : Prop where
  array : r.2.1 = some p
  mallocs : r.1.mallocs = w.mallocs
  others : ∀ x, x ≠ p → r.1.cells x = w.cells x

theorem store_others (w : World) (b : Buffer) {x : Nat} (ne : x ≠ p) :
    (w.store p b).cells x = w.cells x := if_neg ne

theorem poke_local (w : World) (p : Nat) (b : Buffer) (off : Nat) (l : List Byte) (ret : Option Nat) :
    Local w p (poke w p b off l, some p, ret) := by
  unfold poke
  refine ⟨rfl, ?_, fun x ne => ?_⟩
  · simp only
    split <;> rfl
  · simp only
    split
    · exact store_others w _ ne
    · exact store_others w _ ne

theorem Local.ledger {l : Ledger} {r : World × Array × Option Nat}
    (here : Local { w with ledger := l } p r) : Local w p r :=
  ⟨here.array, here.mallocs, here.others⟩

theorem appendAt_local (w : World) (p used : Nat) (src : Data) : Local w p (appendAt w p used src) := by
  unfold appendAt
  split
  · exact ⟨rfl, rfl, fun _ _ => rfl⟩
  · split
    · exact ⟨rfl, rfl, fun _ _ => rfl⟩
    · exact poke_local w p _ _ _ _

theorem insertAt_local (env : Env) (w : World) (p pos len : Nat) :
    Local w p (insertAt env w p pos len) := by
  unfold insertAt
  split
  · exact ⟨rfl, rfl, fun _ _ => rfl⟩
  · exact ⟨rfl, rfl, fun x ne => if_neg ne⟩

theorem sliceAt_local (env : Env) (w : World) (p used off total : Nat) :
    Local w p (sliceAt env w p used off total) := by
  unfold sliceAt
  split
  · exact ⟨rfl, rfl, fun _ _ => rfl⟩
  · split
    · simp only
      split
      · exact ⟨rfl, rfl, fun x ne => if_neg ne⟩
      · split
        · split
          · exact ⟨rfl, rfl, fun x ne => if_neg ne⟩
          · exact (poke_local _ p _ _ _ _).ledger
        · exact (poke_local _ p _ _ _ _).ledger
    · exact ⟨rfl, rfl, fun _ _ => rfl⟩

theorem cutAt_local (w : World) (p off len : Nat) : Local w p (cutAt w (some p) off len) := by
  unfold cutAt
  simp only [Option.bind_some]
  cases cell : w.cells p with
  | none => exact ⟨rfl, rfl, fun _ _ => rfl⟩
  | some b =>
      simp only [Option.map_some]
      split
      · exact ⟨rfl, rfl, fun x ne => if_neg ne⟩
      · exact ⟨rfl, rfl, fun x ne => if_neg ne⟩

/-- An array that had the buffer `b` at `p` has it still, or a new one. -/
structure Places (w : World) (p : Nat) (b : Buffer) (r : World × Array × Option Nat) : Prop where
  mallocs : w.mallocs ≤ r.1.mallocs
  array : (r.2.1 = some p ∧ ∀ x, x ≠ p → r.1.cells x = w.cells x) ∨
    r.2.1 = some w.mallocs ∧ Released r.1 p b ∧
      ∀ x, x ≠ p → x ≠ w.mallocs → r.1.cells x = w.cells x

theorem Local.places {r : World × Array × Option Nat} (here : Local w p r) : Places w p b r :=
  ⟨Nat.le_of_eq here.mallocs.symm, .inl ⟨here.array, here.others⟩⟩

/-- A new block, or none. -/
theorem bufferDetach_leaves (h : Raw w p b) (held : 0 < b.refs) {len : Nat} (fits : b.used ≤ len)
    (small : len + 192 ≤ sizeLimit) (detach : bufferDetach env w p len = (w₁, some q)) :
    (q = p ∧ w₁ = w ∧ b.refs < 2) ∨ q = w.mallocs ∧ w.mallocs ≤ w₁.mallocs ∧ Released w₁ p b ∧
      ∀ x, x ≠ p → x ≠ w.mallocs → w₁.cells x = w.cells x := by
  have sized : (b.traits.any fun traits => decide (traits.size = 0)) = false := by
    simp [h.traits]
  have len_eq : detachSize b.traits len = len := by rw [h.traits]; rfl
  by_cases keep : b.refs < 2 ∧ detachSize b.traits len ≤ b.size ∧ b.flags.immutable = false
  · rw [detach_kept h.cell sized keep] at detach
    cases detach
    exact .inl ⟨rfl, rfl, keep.1⟩
  by_cases pinned : b.pinned
  · rw [detach_pinned h.cell sized keep pinned] at detach
    cases detach
  rcases bufferAlloc_small env w { b.flags with immutable := false } small with
    ⟨_, eq⟩ | ⟨next, eq, size, used, _⟩
  · rw [← len_eq] at eq
    rw [detach_refused h.cell sized keep pinned eq] at detach
    cases detach
  have room := le_roomFor len
  have apart : p ≠ w.mallocs := Nat.ne_of_lt h.made
  rw [← len_eq] at eq
  rcases lower : refcountLower b.refs with ⟨left, _ | _⟩
  · have set := bufferSet_raw env w.ledger (b := { next with traits := b.traits }) h.traits
      (show 0 + (Data.bytes b.content).len ≤ next.size by
        simp only [Data.len, length_bufferContent]
        omega)
      (by
        simp only [Data.len, length_bufferContent]
        omega)
    have copied := detach_copied h.cell sized keep pinned eq (World.store_self _ _ _) lower
    rw [h.traits] at copied set
    simp only [World.store] at copied
    rw [set] at copied
    rw [copied] at detach
    cases detach
    refine .inr ⟨rfl, Nat.le_succ _, ?_, fun x ne new => ?_⟩
    · unfold refcountLower at lower
      rw [if_neg (Nat.ne_of_gt held)] at lower
      obtain ⟨less, more⟩ := Prod.mk.inj lower
      unfold Released
      rw [if_neg (by simp at more; omega), ← less]
      rw [h.traits]
      exact (if_neg apart).trans (if_pos rfl)
    · exact (if_neg new).trans ((if_neg ne).trans (if_neg new))
  · have moved := detach_moved h.cell sized keep pinned eq (World.store_self _ _ _) lower
    rw [moved] at detach
    simp only at detach
    cases detach
    have single : b.refs < 2 := by
      unfold refcountLower at lower
      rw [if_neg (Nat.ne_of_gt held)] at lower
      have none := (Prod.mk.inj lower).2
      simp at none
      omega
    refine .inr ⟨rfl, ?_, ?_, fun x ne new => ?_⟩
    · split <;> exact Nat.le_succ _
    · unfold Released
      rw [if_pos single]
      split <;> exact if_pos rfl
    · split <;> exact (if_neg ne).trans ((if_neg new).trans (if_neg new))

theorem Places.next (made : p < w.mallocs) {ret : Option Nat} (first : Places w p b (w₁, some q, ret))
    {r : World × Array × Option Nat} (here : Local w₁ q r) : Places w p b r := by
  refine ⟨by rw [here.mallocs]; exact first.mallocs, ?_⟩
  rcases first.array with ⟨same, others⟩ | ⟨same, released, others⟩
  · cases same
    exact .inl ⟨here.array, fun x ne => (here.others x ne).trans (others x ne)⟩
  · cases same
    refine .inr ⟨here.array, ?_, fun x ne new => (here.others x new).trans (others x ne new)⟩
    unfold Released
    rw [here.others p (Nat.ne_of_lt made)]
    exact released

/-- What is done to a detached buffer. -/
theorem places_detached (h : Raw w p b) (held : 0 < b.refs) {len : Nat} (fits : b.used ≤ len)
    (small : len + 192 ≤ sizeLimit) (detach : bufferDetach env w p len = (w₁, some q))
    {r : World × Array × Option Nat} (here : Local w₁ q r) : Places w p b r := by
  have first : Places w p b (w₁, some q, none) := by
    rcases bufferDetach_leaves h held fits small detach with ⟨rfl, rfl, _⟩ | ⟨rfl, more, released, same⟩
    · exact ⟨Nat.le_refl _, .inl ⟨rfl, fun _ _ => rfl⟩⟩
    · exact ⟨more, .inr ⟨rfl, released, same⟩⟩
  exact first.next h.made here

theorem places_same (array : Array) {ret : Option Nat} (same : array = some p)
    (more : w.mallocs ≤ w₁.mallocs) (cells : w₁.cells = w.cells) : Places w p b (w₁, array, ret) :=
  ⟨more, .inl ⟨same, fun x _ => by rw [cells]⟩⟩

/-! ## Edits of shared bytes -/

/-- A call makes a copy of bytes that others have too, of a size that does not wrap around. -/
def Parted (w : World) (arr : Array) (e : Edit) : Prop :=
  let (used, size, _) := extent w arr
  match e with
  | .insert pos data => longRoom pos < data.length ∨ max pos used + data.length + 192 ≤ sizeLimit
  | .append src => src.len = 0 ∨ size < used + src.len
  | .slice off len => sizeLimit ≤ off + len ∨ max used (off + len) + 192 ≤ sizeLimit
  | .cut _ _ => False

/-- Detaching the bytes of some holders. -/
theorem detach_cases (env : Env) (h : Raw w p b) (held : 0 < b.refs) {len : Nat} (fits : b.used ≤ len)
    (small : len + 192 ≤ sizeLimit) : ∃ w₁, Calm w w₁ ∧
      ((bufferDetach env w p len = (w₁, none) ∧ w₁.cells = w.cells) ∨
        ∃ q b₁, bufferDetach env w p len = (w₁, some q) ∧ Raw w₁ q b₁ ∧ b₁.used = b.used ∧
          b₁.content = b.content ∧ len ≤ b₁.size ∧ (b.refs = 1 ∨ q = w.mallocs) ∧ b₁.refs = 1 ∧
          b₁.flags.immutable = false) := by
  obtain ⟨w₁, calm, ⟨detach, cells, _⟩ | ⟨q, b₁, detach, raw, used, content, enough, change⟩⟩ :=
    bufferDetach_raw env h fits small
  · exact ⟨w₁, calm, .inl ⟨detach, cells⟩⟩
  · refine ⟨w₁, calm, .inr ⟨q, b₁, detach, raw, used, content, enough, ?_⟩⟩
    rcases bufferDetach_leaves h held fits small detach with ⟨rfl, rfl, single⟩ | ⟨rfl, _⟩
    · have one : b.refs = 1 := by omega
      refine ⟨.inl one, ?_⟩
      rcases change with ⟨_, _, rfl, mutable⟩ | ⟨single', mutable, _⟩
      · exact ⟨one, mutable⟩
      · exact ⟨single', mutable⟩
    · refine ⟨.inr rfl, ?_⟩
      rcases change with ⟨rfl, same, _⟩ | ⟨single', mutable, _⟩
      · exact absurd same (Nat.ne_of_gt h.made)
      · exact ⟨single', mutable⟩

/-- What an edit of shared bytes is: nothing, or the same edit of a copy. -/
inductive Copies (env : Env) (w : World) (p : Nat) (b : Buffer) (e : Edit) :
    World × Array × Option Nat → Prop where
  | nothing {w' : World} {ret : Option Nat} (cells : w'.cells = w.cells) (fault : w'.fault = w.fault)
      (same : ret.isSome → e.apply b.content = b.content) : Copies env w p b e (w', some p, ret)
  | copy {w' : World} {b' : Buffer} (calm : Calm w w') (raw : Raw w' w.mallocs b')
      (single : b'.refs = 1) (content : b'.content = b.content)
      (fine : Fine (w', some w.mallocs) e) : Copies env w p b e (edit env w' (some w.mallocs) e)

theorem guard_places {pos : Nat} {data : List Byte} (guard : longRoom pos < data.length) :
    insertData env w (some p) pos data = (w.refuse, some p, none) := by
  have eq : arrayInsert env w (some p) pos data.length = (w.refuse, some p, none) := by
    unfold arrayInsert
    rw [if_pos guard]
  exact insertData_failed eq

/-- The copy behind an insertion. -/
theorem insertData_places (made : p < w.mallocs) {pos : Nat} {data : List Byte}
    (places : Places w p b (arrayInsert env w (some p) pos data.length)) :
    Places w p b (insertData env w (some p) pos data) := by
  unfold insertData
  generalize arrayInsert env w (some p) pos data.length = r at places ⊢
  obtain ⟨w', arr, ret⟩ := r
  cases ret with
  | none => exact places
  | some addr =>
      simp only
      have array : ∃ q, arr = some q := by
        rcases places.array with ⟨same, _⟩ | ⟨same, _⟩
        · exact ⟨_, same⟩
        · exact ⟨_, same⟩
      obtain ⟨q, rfl⟩ := array
      simp only [Option.bind_some]
      cases cell : w'.cells q with
      | none =>
          simp only [Option.map_none]
          exact places.next made ⟨rfl, rfl, fun _ _ => rfl⟩
      | some b' =>
          simp only [Option.map_some]
          exact places.next made (poke_local w' q b' pos data _)

theorem insert_places (env : Env) (h : Raw w p b) (held : 0 < b.refs) {pos : Nat} {data : List Byte}
    (fine : Fine (w, some p) (.insert pos data))
    (parted : b.shared → Parted w (some p) (.insert pos data)) :
    Places w p b (insertData env w (some p) pos data) := by
  unfold Fine extent at fine
  unfold Parted extent at parted
  simp only [Option.bind_some, h.cell, Attainable] at fine parted
  by_cases guard : longRoom pos < data.length
  · rw [guard_places guard]
    exact places_same _ rfl (Nat.le_refl _) rfl
  refine insertData_places h.made ?_
  have small : max pos b.used + data.length < sizeLimit := by
    unfold sizeLimit at *
    omega
  by_cases room : max pos b.used + data.length ≤ b.size ∧ ¬ b.shared
  · have eq : arrayInsert env w (some p) pos data.length = insertAt env w p pos data.length := by
      unfold arrayInsert
      simp only [h.cell]
      rw [if_neg guard, Nat.mod_eq_of_lt small, if_pos room, if_neg (by omega)]
    rw [eq]
    exact (insertAt_local env w p pos _).places
  · have enough : max pos b.used + data.length + 192 ≤ sizeLimit := by
      by_cases shared : b.shared
      · exact (parted shared).resolve_left guard
      · exact ((fine.resolve_left guard).resolve_left fun fits => room ⟨fits.1, shared⟩)
    rw [arrayInsert_detached env h.cell guard room small]
    have fits : b.used ≤ max pos b.used + data.length := by omega
    obtain ⟨w₁, calm, ⟨detach, cells⟩ | ⟨q, b₁, detach, _⟩⟩ := detach_cases env h held fits enough
    · rw [detach]
      exact places_same _ rfl calm.mallocs cells
    · rw [detach]
      exact places_detached h held fits enough detach (insertAt_local env w₁ q pos _)

theorem append_places (env : Env) (h : Raw w p b) (held : 0 < b.refs) {src : Data}
    (fine : Fine (w, some p) (.append src)) : Places w p b (arrayAppend env w (some p) src) := by
  unfold Fine extent at fine
  simp only [Option.bind_some, h.cell, Attainable] at fine
  have used := h.used
  unfold arrayAppend
  simp only [h.cell, h.traits, Option.isSome_none, Bool.false_eq_true, if_false]
  by_cases room : b.size - b.used < src.len
  · rw [if_pos room]
    by_cases checked : sizeLimit ≤ b.used + src.len
    · rw [if_pos checked]
      exact places_same _ rfl (Nat.le_refl _) rfl
    · rw [if_neg checked]
      have enough := (fine.2.resolve_left checked).resolve_left fun h => by omega
      have fits : b.used ≤ b.used + src.len := Nat.le_add_right _ _
      obtain ⟨w₁, calm, ⟨detach, cells⟩ | ⟨q, b₁, detach, _⟩⟩ := detach_cases env h held fits enough
      · rw [detach]
        exact places_same _ rfl calm.mallocs cells
      · rw [detach]
        exact places_detached h held fits enough detach (appendAt_local w₁ q _ src)
  · rw [if_neg room]
    exact (appendAt_local w p _ src).places

theorem slice_places (env : Env) (h : Raw w p b) (held : 0 < b.refs) {off len : Nat}
    (fine : Fine (w, some p) (.slice off len))
    (parted : b.shared → Parted w (some p) (.slice off len)) :
    Places w p b (arraySlice env w (some p) off len) := by
  unfold Fine extent at fine
  unfold Parted extent at parted
  simp only [Option.bind_some, h.cell, Attainable] at fine parted
  by_cases checked : sizeLimit ≤ off + len
  · have refused : arraySlice env w (some p) off len = (w, some p, none) := if_pos checked
    rw [refused]
    exact places_same _ rfl (Nat.le_refl _) rfl
  rw [arraySlice_raw env h checked]
  by_cases detached : b.size < off + len ∨ b.flags.immutable ∨ b.shared
  · rw [if_pos detached]
    have enough : max b.used (off + len) + 192 ≤ sizeLimit := by
      by_cases shared : b.shared
      · exact (parted shared).resolve_left checked
      · rcases fine.resolve_left checked with ⟨fits, _⟩ | enough
        · rcases detached with full | immutable | shared'
          · split at fits <;> omega
          · rw [if_pos immutable] at fits
            unfold sizeLimit
            omega
          · exact absurd shared' shared
        · exact enough
    have fits : b.used ≤ max b.used (off + len) := Nat.le_max_left _ _
    obtain ⟨w₁, calm, ⟨detach, cells⟩ | ⟨q, b₁, detach, _⟩⟩ := detach_cases env h held fits enough
    · rw [detach]
      exact places_same _ rfl calm.mallocs cells
    · rw [detach]
      exact places_detached h held fits enough detach (sliceAt_local env w₁ q _ off _)
  · rw [if_neg detached]
    exact (sliceAt_local env w p _ off _).places

/-- Where the bytes are after an edit. -/
theorem edit_places (env : Env) (h : Raw w p b) (held : 0 < b.refs) (fine : Fine (w, some p) e)
    (parted : b.shared → Parted w (some p) e) : Places w p b (edit env w (some p) e) := by
  cases e with
  | insert pos data => exact insert_places env h held fine parted
  | append src => exact append_places env h held fine
  | slice off len => exact slice_places env h held fine parted
  | cut off len => exact (cutAt_local w p off len).places

theorem insert_copies (env : Env) (h : Raw w p b) (many : 2 ≤ b.refs) {pos : Nat} {data : List Byte}
    (parted : Parted w (some p) (.insert pos data)) :
    Copies env w p b (.insert pos data) (insertData env w (some p) pos data) := by
  unfold Parted extent at parted
  simp only [Option.bind_some, h.cell] at parted
  by_cases guard : longRoom pos < data.length
  · rw [guard_places guard]
    exact .nothing rfl rfl fun none => by cases none
  have enough := parted.resolve_left guard
  have small : max pos b.used + data.length < sizeLimit := by omega
  have shared : b.shared = true := decide_eq_true many
  have eq := arrayInsert_detached env h.cell guard (fun room => room.2 shared) small
  have fits : b.used ≤ max pos b.used + data.length := by omega
  obtain ⟨w₁, calm, ⟨detach, cells⟩ | ⟨q, b₁, detach, raw, used, content, room, place, single, _⟩⟩ :=
    detach_cases env h (by omega) fits enough
  · rw [detach] at eq
    rw [insertData_failed eq]
    exact .nothing cells calm.fault fun none => by cases none
  · obtain rfl := place.resolve_left (by omega)
    rw [detach] at eq
    have again : arrayInsert env w₁ (some w.mallocs) pos data.length =
        insertAt env w₁ w.mallocs pos data.length := by
      unfold arrayInsert
      simp only [raw.cell]
      rw [if_neg guard, used, Nat.mod_eq_of_lt small, if_pos ⟨room, by simp [Buffer.shared, single]⟩,
        if_neg (by omega)]
    have same : insertData env w (some p) pos data = insertData env w₁ (some w.mallocs) pos data := by
      unfold insertData
      rw [eq, again]
    rw [same]
    refine .copy (e := .insert pos data) calm raw single content ?_
    unfold Fine extent
    simp only [Option.bind_some, raw.cell, used]
    exact .inr (.inl ⟨room, small⟩)

theorem append_copies (env : Env) (h : Raw w p b) (many : 2 ≤ b.refs) {src : Data}
    (fine : Fine (w, some p) (.append src)) (parted : Parted w (some p) (.append src)) :
    Copies env w p b (.append src) (arrayAppend env w (some p) src) := by
  unfold Fine extent at fine
  unfold Parted extent at parted
  simp only [Option.bind_some, h.cell, Attainable] at fine parted
  have used := h.used
  by_cases room : b.size - b.used < src.len
  · by_cases checked : sizeLimit ≤ b.used + src.len
    · have eq : arrayAppend env w (some p) src = (w, some p, none) := by
        unfold arrayAppend
        simp only [h.cell, h.traits, Option.isSome_none, Bool.false_eq_true, if_false]
        rw [if_pos room, if_pos checked]
      rw [eq]
      exact .nothing rfl rfl fun none => by cases none
    · have enough := (fine.2.resolve_left checked).resolve_left fun h => by omega
      have fits : b.used ≤ b.used + src.len := Nat.le_add_right _ _
      obtain ⟨w₁, calm, ⟨detach, cells⟩ |
          ⟨q, b₁, detach, raw, size, content, space, place, single, _⟩⟩ :=
        detach_cases env h (by omega) fits enough
      · have eq : arrayAppend env w (some p) src = (w₁, some p, none) := by
          unfold arrayAppend
          simp only [h.cell, h.traits, Option.isSome_none, Bool.false_eq_true, if_false, detach]
          exact (if_pos room).trans (if_neg checked)
        rw [eq]
        exact .nothing cells calm.fault fun none => by cases none
      · obtain rfl := place.resolve_left (by omega)
        have eq : arrayAppend env w (some p) src = appendAt w₁ w.mallocs b.used src := by
          unfold arrayAppend
          simp only [h.cell, h.traits, Option.isSome_none, Bool.false_eq_true, if_false, detach]
          exact (if_pos room).trans (if_neg checked)
        have same : arrayAppend env w (some p) src = arrayAppend env w₁ (some w.mallocs) src := by
          rw [eq]
          unfold arrayAppend
          simp only [raw.cell, raw.traits, Option.isSome_none, Bool.false_eq_true, if_false, size]
          rw [if_neg (by omega)]
        rw [same]
        refine .copy (e := .append src) calm raw single content ?_
        unfold Fine extent
        simp only [Option.bind_some, raw.cell, size]
        exact ⟨fine.1, .inr (.inl ⟨space, by omega⟩)⟩
  · have none : src.len = 0 := by omega
    have eq : arrayAppend env w (some p) src = (w, some p, some (b.base + b.used)) := by
      unfold arrayAppend appendAt
      simp only [h.cell, h.traits, Option.isSome_none, Bool.false_eq_true, if_false]
      rw [if_neg room, if_pos none]
    rw [eq]
    refine .nothing rfl rfl fun _ => ?_
    have empty : src.content = [] := List.eq_nil_of_length_eq_zero (by simp [none])
    simp [Edit.apply, empty]

theorem slice_copies (env : Env) (h : Raw w p b) (many : 2 ≤ b.refs) {off len : Nat}
    (parted : Parted w (some p) (.slice off len)) :
    Copies env w p b (.slice off len) (arraySlice env w (some p) off len) := by
  unfold Parted extent at parted
  simp only [Option.bind_some, h.cell] at parted
  by_cases checked : sizeLimit ≤ off + len
  · have refused : arraySlice env w (some p) off len = (w, some p, none) := if_pos checked
    rw [refused]
    exact .nothing rfl rfl fun none => by cases none
  have enough := parted.resolve_left checked
  have shared : b.shared = true := decide_eq_true many
  have eq := arraySlice_raw env h checked
  rw [if_pos (.inr (.inr shared))] at eq
  have fits : b.used ≤ max b.used (off + len) := Nat.le_max_left _ _
  obtain ⟨w₁, calm, ⟨detach, cells⟩ |
      ⟨q, b₁, detach, raw, used, content, space, place, single, mutable⟩⟩ :=
    detach_cases env h (by omega) fits enough
  · rw [eq, detach]
    exact .nothing cells calm.fault fun none => by cases none
  · obtain rfl := place.resolve_left (by omega)
    have keep : ¬ (b₁.size < off + len ∨ b₁.flags.immutable = true ∨ b₁.shared = true) := by
      rw [mutable]
      simp [Buffer.shared, single]
      omega
    have same : arraySlice env w (some p) off len = arraySlice env w₁ (some w.mallocs) off len := by
      rw [eq, detach, arraySlice_raw env raw checked, if_neg keep, used]
    rw [same]
    refine .copy (e := .slice off len) calm raw single content ?_
    unfold Fine extent
    simp only [Option.bind_some, raw.cell, used, mutable, Bool.false_eq_true, if_false]
    exact .inr (.inl ⟨space, by omega⟩)

/-- An edit of shared bytes is one of a copy. -/
theorem edit_copies (env : Env) (h : Raw w p b) (many : 2 ≤ b.refs) (fine : Fine (w, some p) e)
    (parted : Parted w (some p) e) : Copies env w p b e (edit env w (some p) e) := by
  cases e with
  | insert pos data => exact insert_copies env h many parted
  | append src => exact append_copies env h many fine parted
  | slice off len => exact slice_copies env h many parted
  | cut off len => exact absurd parted fun none => by cases none

/-- The bytes of an array that had the buffer `b` at `p`: where nothing changed they are those
    of the buffer, and otherwise the array has a buffer to itself. -/
structure Edited (env : Env) (w : World) (p : Nat) (b : Buffer) (e : Edit)
    (r : World × Array × Option Nat) : Prop where
  fault : r.1.fault = w.fault
  places : Places w p b r
  bytes : (r.1.cells = w.cells ∧ r.2.1 = some p ∧ (r.2.2.isSome → e.apply b.content = b.content)) ∨
    ∃ q b', r.2.1 = some q ∧ Raw r.1 q b' ∧ b'.refs = 1 ∧ (b.refs = 1 ∨ q = w.mallocs) ∧
      b'.content = if r.2.2.isSome then e.apply b.content else b.content

/-- An edit of the bytes of any number of holders. -/
theorem edit_edited (env : Env) (h : Raw w p b) (held : 0 < b.refs) (fine : Fine (w, some p) e)
    (parted : b.shared → Parted w (some p) e) : Edited env w p b e (edit env w (some p) e) := by
  have places := edit_places env h held fine parted
  by_cases single : b.refs = 1
  · obtain ⟨fault, result⟩ := edit_edits env (.inr ⟨p, b, rfl, h, single, rfl⟩) fine
    refine ⟨fault, places, ?_⟩
    have array := places.array
    generalize edit env w (some p) e = r at result array
    obtain ⟨w', arr, ret⟩ := r
    cases ret with
    | none => exact .inl ⟨result.1, result.2.1, fun none => by cases none⟩
    | some addr =>
        rcases result with ⟨rfl, _⟩ | ⟨q, b', rfl, raw, refs, content⟩
        · rcases array with ⟨none, _⟩ | ⟨none, _⟩
          · cases none
          · cases none
        · exact .inr ⟨q, b', rfl, raw, refs, .inl single, content⟩
  · have many : 2 ≤ b.refs := by omega
    have copies := edit_copies env h many fine (parted (decide_eq_true many))
    generalize edit env w (some p) e = r at places copies
    cases copies with
    | nothing cells fault same => exact ⟨fault, places, .inl ⟨cells, rfl, same⟩⟩
    | @copy w' b' calm raw refs content fine =>
        obtain ⟨fault, result⟩ := edit_edits env (.inr ⟨w.mallocs, b', rfl, raw, refs, rfl⟩) fine
        refine ⟨fault.trans calm.fault, places, .inr ?_⟩
        have array := places.array
        have new := (edit_places env raw (by omega) fine
          (fun shared => by simp [Buffer.shared, refs] at shared)).array
        generalize edit env w' (some w.mallocs) e = r at result array new
        obtain ⟨w'', arr, ret⟩ := r
        rw [content] at result
        cases ret with
        | none =>
            obtain ⟨cells, same, more⟩ := result
            cases same
            refine ⟨w.mallocs, b', rfl, ⟨by rw [cells]; exact raw.cell, ?_, raw.traits, raw.used⟩, refs,
              .inr rfl, content⟩
            exact Nat.lt_of_lt_of_le raw.made more
        | some addr =>
            rcases result with ⟨rfl, _⟩ | ⟨q, b'', rfl, raw', refs', content'⟩
            · rcases array with ⟨none, _⟩ | ⟨none, _⟩
              · cases none
              · cases none
            · refine ⟨q, b'', rfl, raw', refs', .inr ?_, content'⟩
              rcases array with ⟨same, others⟩ | ⟨same, _⟩
              · have before := h.made
                have more := calm.mallocs
                rcases new with ⟨same', _⟩ | ⟨same', _⟩
                · exact Option.some.inj same'
                · have eq := Option.some.inj (same.symm.trans same')
                  omega
              · exact Option.some.inj same

/-! ## Arrays without a buffer -/

/-- An array without a buffer has none still, or a new one. -/
structure Opens (w : World) (r : World × Array × Option Nat) : Prop where
  mallocs : w.mallocs ≤ r.1.mallocs
  array : (r.2.1 = none ∧ r.1.cells = w.cells) ∨
    r.2.1 = some w.mallocs ∧ ∀ x, x ≠ w.mallocs → r.1.cells x = w.cells x

theorem bufferAlloc_opens {len : Nat} {flags : Flags} {new : Option Nat} (ret : Option Nat)
    (alloc : bufferAlloc env w len flags = (w₁, new)) : Opens w (w₁, new, ret) := by
  have cases := bufferAlloc_cases env w len flags
  rw [alloc] at cases
  cases cases with
  | refused cells mallocs => exact ⟨by simp only; omega, .inl ⟨rfl, cells⟩⟩
  | made cells mallocs =>
      refine ⟨by simp only; omega, .inr ⟨rfl, fun x ne => ?_⟩⟩
      simp only [cells]
      exact store_others w _ ne

theorem Opens.next {ret : Option Nat} (first : Opens w (w₁, some q, ret))
    {r : World × Array × Option Nat} (here : Local w₁ q r) : Opens w r := by
  refine ⟨by rw [here.mallocs]; exact first.mallocs, ?_⟩
  rcases first.array with ⟨none, _⟩ | ⟨same, others⟩
  · cases none
  · cases same
    exact .inr ⟨here.array, fun x ne => (here.others x ne).trans (others x ne)⟩

theorem insertData_opens {pos : Nat} {data : List Byte}
    (opens : Opens w (arrayInsert env w none pos data.length)) :
    Opens w (insertData env w none pos data) := by
  unfold insertData
  generalize arrayInsert env w none pos data.length = r at opens ⊢
  obtain ⟨w', arr, ret⟩ := r
  cases ret with
  | none => exact opens
  | some addr =>
      simp only
      cases arr with
      | none => exact ⟨opens.mallocs, .inl ⟨rfl, by
          rcases opens.array with ⟨_, cells⟩ | ⟨none, _⟩
          · exact cells
          · cases none⟩⟩
      | some q =>
          simp only [Option.bind_some]
          cases cell : w'.cells q with
          | none =>
              simp only [Option.map_none]
              exact opens.next ⟨rfl, rfl, fun _ _ => rfl⟩
          | some b' =>
              simp only [Option.map_some]
              exact opens.next (poke_local w' q b' pos data _)

theorem edit_opens (env : Env) (w : World) (e : Edit) : Opens w (edit env w none e) := by
  have same {w' : World} {ret : Option Nat} (cells : w'.cells = w.cells)
      (mallocs : w'.mallocs = w.mallocs) : Opens w (w', none, ret) :=
    ⟨Nat.le_of_eq mallocs.symm, .inl ⟨rfl, cells⟩⟩
  cases e with
  | insert pos data =>
      refine insertData_opens ?_
      unfold arrayInsert
      split
      · exact same rfl rfl
      · simp only
        split
        · next alloc => exact bufferAlloc_opens _ alloc
        · next w' q alloc =>
          have first := bufferAlloc_opens none alloc
          split
          · exact first.next ⟨rfl, rfl, fun _ _ => rfl⟩
          · exact first.next (poke_local w' q _ _ _ _)
  | append src =>
      show Opens w (arrayAppend env w none src)
      unfold arrayAppend
      simp only
      split
      · next alloc => exact bufferAlloc_opens _ alloc
      · next w' q alloc =>
        exact (bufferAlloc_opens none alloc).next (appendAt_local w' q 0 src)
  | slice off len =>
      show Opens w (arraySlice env w none off len)
      unfold arraySlice
      simp only
      split
      · exact same rfl rfl
      · split
        · next alloc => exact bufferAlloc_opens _ alloc
        · next w' q alloc =>
          have first := bufferAlloc_opens none alloc
          split
          · exact first.next ⟨rfl, rfl, fun _ _ => rfl⟩
          · exact first.next (poke_local w' q _ _ _ _)
  | cut off len => exact same rfl rfl

/-! ## References -/

theorem bufferUnref_raw (h : Raw w p b) (held : 0 < b.refs) :
    Released (bufferUnref w p) p b ∧ (bufferUnref w p).mallocs = w.mallocs ∧
      (bufferUnref w p).fault = w.fault ∧ ∀ x, x ≠ p → (bufferUnref w p).cells x = w.cells x := by
  unfold bufferUnref Released refcountLower
  simp only [h.cell, if_neg (Nat.ne_of_gt held)]
  by_cases last : b.refs - 1 = 0
  · rw [decide_eq_true last, if_pos (by omega)]
    simp only [h.traits]
    exact ⟨World.free_self _ _, rfl, rfl, fun x ne => World.free_ne _ ne⟩
  · rw [decide_eq_false last, if_neg (by omega)]
    exact ⟨World.store_self _ _ _, rfl, rfl, fun x ne => store_others w _ ne⟩

theorem bufferRef_raw (h : Raw w p b) (held : 0 < b.refs) :
    (bufferRef w p).1.mallocs = w.mallocs ∧ (bufferRef w p).1.fault = w.fault ∧
      ((bufferRef w p).2 = 0 ∧ (bufferRef w p).1.cells = w.cells ∨
        (bufferRef w p).2 ≠ 0 ∧
          (bufferRef w p).1.cells = (w.store p { b with refs := b.refs + 1 }).cells) := by
  unfold bufferRef refcountRaise
  simp only [h.cell]
  by_cases full : b.refs + 1 = sizeLimit
  · rw [if_pos (.inr full)]
    exact ⟨rfl, rfl, .inl ⟨rfl, store_same h.cell⟩⟩
  · rw [if_neg (by omega)]
    exact ⟨rfl, rfl, .inr ⟨Nat.succ_ne_zero _, rfl⟩⟩

/-! ## Any number of arrays -/

/-- The heap and all the arrays. -/
structure Holders where
  world : World
  arrays : List Array

inductive Share where
  | edit (i : Nat) (e : Edit)
  /-- `mpt_array_clone` from another array, or from none -/
  | clone (i : Nat) (from_ : Option Nat)

namespace Holders

/-- One call, and if it succeeds. -/
def step (env : Env) (s : Holders) : Share → Holders × Bool
  | .edit i e =>
      match s.arrays[i]? with
      | none => (s, false)
      | some arr =>
          let (w, arr, ret) := Heap.edit env s.world arr e
          (⟨w, s.arrays.set i arr⟩, ret.isSome)
  | .clone i none =>
      match s.arrays[i]? with
      | none => (s, false)
      | some arr =>
          let (w, arr, ret) := arrayClone s.world arr none
          (⟨w, s.arrays.set i arr⟩, ret.isOk)
  | .clone i (some j) =>
      match s.arrays[i]?, s.arrays[j]? with
      | some arr, some src =>
          let (w, arr, ret) := arrayClone s.world arr (some src)
          (⟨w, s.arrays.set i arr⟩, ret.isOk)
      | _, _ => (s, false)

def machine (env : Env) : Machine Holders Share Bool := ⟨step env⟩

end Holders

/-- The call as an operation on values. -/
def Share.apply (ls : List (List Byte)) : Share → List (List Byte)
  | .edit i e => ls.set i (e.apply (ls.getD i []))
  | .clone i none => ls.set i []
  | .clone i (some j) => ls.set i (ls.getD j [])

/-- The values after calls of which some succeed. -/
def Share.applyAll (ls : List (List Byte)) : List Share → List Bool → List (List Byte)
  | c :: cs, ok :: oks => applyAll (if ok then c.apply ls else ls) cs oks
  | _, _ => ls

/-- The sizes of an edit, and that shared bytes are copied; an array without a buffer is not
    the source for one that has a buffer. -/
def Share.Allowed (s : Holders) : Share → Prop
  | .edit i e => ∀ arr, s.arrays[i]? = some arr → Fine (s.world, arr) e ∧
      ∀ p b, arr = some p → s.world.cells p = some b → b.shared → Parted s.world arr e
  | .clone _ none => True
  | .clone i (some j) => s.arrays[j]? = some none → s.arrays[i]? = some none

/-- Every buffer counts the arrays that have it, and every array has its value. -/
structure Shares (w : World) (arrs : List Array) (ls : List (List Byte)) : Prop where
  size : arrs.length = ls.length
  cells : ∀ x b, w.cells x = some b → Raw w x b ∧ 0 < b.refs ∧ b.refs = arrs.count (some x)
  values : ∀ (i : Nat) (a : Array), arrs[i]? = some a → (a = none ∧ ls[i]? = some []) ∨
    ∃ p b, a = some p ∧ w.cells p = some b ∧ ls[i]? = some b.content

variable {arrs : List Array} {ls : List (List Byte)} {i : Nat} {a a' : Array}

theorem count_set (at_ : arrs[i]? = some a) (a' x : Array) : (arrs.set i a').count x =
    arrs.count x - (if a = x then 1 else 0) + if a' = x then 1 else 0 := by
  obtain ⟨inside, eq⟩ := List.getElem?_eq_some_iff.mp at_
  rw [List.count_set inside, eq]
  simp

/-- Two arrays are two. -/
theorem count_two {j : Nat} (ne : j ≠ i) (at_ : arrs[i]? = some a) (at_' : arrs[j]? = some a)
    (b : Array) (other : b ≠ a) : 2 ≤ arrs.count a := by
  have left : a ∈ arrs.set i b := by
    refine List.mem_of_getElem? (i := j) ?_
    rw [List.getElem?_set_ne ne.symm]
    exact at_'
  have some_ := List.count_pos_iff.mpr left
  rw [count_set at_ b a, if_pos rfl, if_neg other] at some_
  omega

namespace Shares

theorem held (h : Shares w arrs ls) (at_ : arrs[i]? = some (some p)) :
    ∃ b, w.cells p = some b ∧ Raw w p b ∧ 0 < b.refs ∧ b.refs = arrs.count (some p) ∧
      ls[i]? = some b.content := by
  rcases h.values i _ at_ with ⟨none, _⟩ | ⟨q, b, same, cell, value⟩
  · cases none
  · cases same
    obtain ⟨raw, some_, count⟩ := h.cells _ _ cell
    exact ⟨b, cell, raw, some_, count, value⟩

/-- Nobody has a buffer that is not made yet. -/
theorem count_new (h : Shares w arrs ls) : arrs.count (some w.mallocs) = 0 := by
  refine List.count_eq_zero.mpr fun mem => ?_
  obtain ⟨j, at_⟩ := List.getElem?_of_mem mem
  obtain ⟨b, _, raw, _⟩ := h.held at_
  exact Nat.lt_irrefl _ raw.made

/-- One array gets another buffer. -/
theorem replace (h : Shares w arrs ls) (at_ : arrs[i]? = some a) {l : List Byte}
    (cells : ∀ x b, w₁.cells x = some b →
      Raw w₁ x b ∧ 0 < b.refs ∧ b.refs = (arrs.set i a').count (some x))
    (here : (a' = none ∧ l = []) ∨ ∃ q b, a' = some q ∧ w₁.cells q = some b ∧ b.content = l)
    (others : ∀ j x b, j ≠ i → arrs[j]? = some (some x) → w.cells x = some b →
      ∃ b', w₁.cells x = some b' ∧ b'.content = b.content) :
    Shares w₁ (arrs.set i a') (ls.set i l) := by
  have inside : i < arrs.length := (List.getElem?_eq_some_iff.mp at_).1
  have inside' : i < ls.length := by rw [← h.size]; exact inside
  refine ⟨by simp [h.size], cells, fun j c at_' => ?_⟩
  by_cases eq : j = i
  · subst eq
    rw [List.getElem?_set_self inside] at at_'
    cases at_'
    rw [List.getElem?_set_self inside']
    rcases here with ⟨none, empty⟩ | ⟨q, b, same, cell, content⟩
    · exact .inl ⟨none, by rw [empty]⟩
    · exact .inr ⟨q, b, same, cell, by rw [content]⟩
  · rw [List.getElem?_set_ne (Ne.symm eq)] at at_' ⊢
    rcases h.values j c at_' with ⟨none, empty⟩ | ⟨x, b, rfl, cell, value⟩
    · exact .inl ⟨none, empty⟩
    · obtain ⟨b', cell', content⟩ := others j x b eq at_' cell
      exact .inr ⟨x, b', rfl, cell', by rw [content, value]⟩

/-- Nothing that an array looks at changes. -/
theorem same (h : Shares w arrs ls) (at_ : arrs[i]? = some a) (cells : w₁.cells = w.cells)
    (more : w.mallocs ≤ w₁.mallocs) : Shares w₁ (arrs.set i a) ls := by
  have keep : arrs.set i a = arrs := by
    obtain ⟨inside, eq⟩ := List.getElem?_eq_some_iff.mp at_
    rw [← eq]
    exact List.set_getElem_self inside
  rw [keep]
  refine ⟨h.size, fun x b cell => ?_, fun j c at_' => ?_⟩
  · rw [cells] at cell
    obtain ⟨raw, some_, count⟩ := h.cells x b cell
    exact ⟨⟨by rw [cells]; exact cell, Nat.lt_of_lt_of_le raw.made more, raw.traits, raw.used⟩, some_,
      count⟩
  · rw [cells]
    exact h.values j c at_'

theorem raw_mono (raw : Raw w p b) (cell : w₁.cells p = some b) (more : w.mallocs ≤ w₁.mallocs) :
    Raw w₁ p b :=
  ⟨cell, Nat.lt_of_lt_of_le raw.made more, raw.traits, raw.used⟩

/-- What is left of a buffer that an array gives up. -/
theorem released (h : Shares w arrs ls) (at_ : arrs[i]? = some (some p)) (cell : w.cells p = some b)
    (gone : Released w₁ p b) (more : w.mallocs ≤ w₁.mallocs) (other : a' ≠ some p) {b' : Buffer}
    (cell' : w₁.cells p = some b') :
    b'.content = b.content ∧ Raw w₁ p b' ∧ 0 < b'.refs ∧
      b'.refs = (arrs.set i a').count (some p) := by
  obtain ⟨raw, some_, count⟩ := h.cells p b cell
  unfold Released at gone
  split at gone
  · rw [gone] at cell'
    cases cell'
  · rw [gone] at cell'
    cases cell'
    refine ⟨rfl, ⟨gone, Nat.lt_of_lt_of_le raw.made more, raw.traits, raw.used⟩, ?_, ?_⟩
    · simp only
      omega
    · rw [count_set at_, if_pos rfl, if_neg other, ← count]
      rfl

/-- A buffer that an array gives up is left for the other arrays that have it. -/
theorem remains {j : Nat} (h : Shares w arrs ls) (at_ : arrs[i]? = some (some p)) (ne : j ≠ i)
    (at_' : arrs[j]? = some (some p)) (cell : w.cells p = some b) (gone : Released w₁ p b) :
    w₁.cells p = some { b with refs := b.refs - 1 } := by
  have two := count_two ne at_ at_' none (by simp)
  have count := (h.cells p b cell).2.2
  unfold Released at gone
  rwa [if_neg (by omega)] at gone

/-- Nothing is new about a buffer that an array neither gives up nor gets. -/
theorem untouched (h : Shares w arrs ls) (at_ : arrs[i]? = some a) {x : Nat} (left : a ≠ some x)
    (taken : a' ≠ some x) (more : w.mallocs ≤ w₁.mallocs) (same : w₁.cells x = w.cells x)
    (cell : w₁.cells x = some b) :
    Raw w₁ x b ∧ 0 < b.refs ∧ b.refs = (arrs.set i a').count (some x) := by
  rw [same] at cell
  obtain ⟨raw, some_, count⟩ := h.cells x b cell
  refine ⟨raw_mono raw (same.trans cell) more, some_, ?_⟩
  rw [count_set at_, if_neg left, if_neg taken, count]
  rfl

/-- An array gets a buffer to itself. -/
theorem own (h : Shares w arrs ls) (at_ : arrs[i]? = some (some p)) (cell : w.cells p = some b)
    {ret : Option Nat} (places : Places w p b (w₁, some q, ret)) {b' : Buffer} (raw' : Raw w₁ q b')
    (single : b'.refs = 1) (was : b.refs = 1 ∨ q = w.mallocs) :
    Shares w₁ (arrs.set i (some q)) (ls.set i b'.content) := by
  obtain ⟨raw, some_, count⟩ := h.cells p b cell
  have apart : p ≠ w.mallocs := Nat.ne_of_lt raw.made
  have more := places.mallocs
  have kept {x : Nat} {b₀ : Buffer} (ne : x ≠ p) (ne' : x ≠ q) (same : w₁.cells x = w.cells x)
      (cell₀ : w₁.cells x = some b₀) :
      Raw w₁ x b₀ ∧ 0 < b₀.refs ∧ b₀.refs = (arrs.set i (some q)).count (some x) :=
    h.untouched at_ (by simpa using ne.symm) (by simpa using ne'.symm) more same cell₀
  rcases places.array with ⟨same, others⟩ | ⟨same, gone, others⟩
  · obtain rfl : q = p := Option.some.inj same
    have one := was.resolve_right apart
    refine h.replace at_ (fun x b₀ cell₀ => ?_) (.inr ⟨q, b', rfl, raw'.cell, rfl⟩) ?_
    · by_cases eq : x = q
      · subst eq
        rw [raw'.cell] at cell₀
        cases cell₀
        refine ⟨raw', by omega, ?_⟩
        rw [count_set at_, if_pos rfl, ← count]
        omega
      · exact kept eq eq (others x eq) cell₀
    · intro j x b₀ ne at_' cell₀
      have eq : x ≠ q := by
        rintro rfl
        have two := count_two ne at_ at_' none (by simp)
        omega
      exact ⟨b₀, (others x eq).trans cell₀, rfl⟩
  · obtain rfl : q = w.mallocs := Option.some.inj same
    refine h.replace at_ (fun x b₀ cell₀ => ?_) (.inr ⟨_, b', rfl, raw'.cell, rfl⟩) ?_
    · by_cases eq : x = w.mallocs
      · subst eq
        rw [raw'.cell] at cell₀
        cases cell₀
        refine ⟨raw', by omega, ?_⟩
        rw [count_set at_, if_neg (by simpa using apart), if_pos rfl, h.count_new]
        exact single
      · by_cases old : x = p
        · subst old
          exact (h.released at_ cell gone more (by simpa using apart.symm) cell₀).2
        · exact kept old eq (others x old eq) cell₀
    · intro j x b₀ ne at_' cell₀
      have new : x ≠ w.mallocs := Nat.ne_of_lt (h.cells x b₀ cell₀).1.made
      by_cases old : x = p
      · subst old
        rw [cell] at cell₀
        cases cell₀
        exact ⟨_, h.remains at_ ne at_' cell gone, rfl⟩
      · exact ⟨b₀, (others x old new).trans cell₀, rfl⟩

/-- An array that had no buffer gets one to itself. -/
theorem opened (h : Shares w arrs ls) (at_ : arrs[i]? = some none) (more : w.mallocs ≤ w₁.mallocs)
    (others : ∀ x, x ≠ w.mallocs → w₁.cells x = w.cells x) {b' : Buffer}
    (raw' : Raw w₁ w.mallocs b') (single : b'.refs = 1) :
    Shares w₁ (arrs.set i (some w.mallocs)) (ls.set i b'.content) := by
  refine h.replace at_ (fun x b₀ cell₀ => ?_) (.inr ⟨_, b', rfl, raw'.cell, rfl⟩) ?_
  · by_cases eq : x = w.mallocs
    · subst eq
      rw [raw'.cell] at cell₀
      cases cell₀
      refine ⟨raw', by omega, ?_⟩
      rw [count_set at_, if_neg (by simp), if_pos rfl, h.count_new]
      exact single
    · exact h.untouched at_ (by simp) (by simpa using Ne.symm eq) more (others x eq) cell₀
  · intro j x b₀ _ at_' cell₀
    have new : x ≠ w.mallocs := Nat.ne_of_lt (h.cells x b₀ cell₀).1.made
    exact ⟨b₀, (others x new).trans cell₀, rfl⟩

theorem set_same {l : List Byte} (value : ls[i]? = some l) : ls.set i l = ls := by
  obtain ⟨inside, eq⟩ := List.getElem?_eq_some_iff.mp value
  rw [← eq]
  exact List.set_getElem_self inside

theorem getD_value {l : List Byte} (value : ls[i]? = some l) : ls.getD i [] = l := by
  rw [List.getD_eq_getElem?_getD, value]
  rfl

/-- An edit of one array is one of its value. -/
theorem edit (env : Env) (h : Shares w arrs ls) (at_ : arrs[i]? = some a) (fine : Fine (w, a) e)
    (parted : ∀ p b, a = some p → w.cells p = some b → b.shared → Parted w a e) :
    Shares (Heap.edit env w a e).1 (arrs.set i (Heap.edit env w a e).2.1)
        (if (Heap.edit env w a e).2.2.isSome then ls.set i (e.apply (ls.getD i [])) else ls) ∧
      (Heap.edit env w a e).1.fault = w.fault := by
  cases a with
  | none =>
      have opens := edit_opens env w e
      obtain ⟨fault, result⟩ := edit_edits env (.inl ⟨rfl, rfl⟩) fine
      refine ⟨?_, fault⟩
      have value : ls[i]? = some [] := by
        rcases h.values i _ at_ with ⟨_, value⟩ | ⟨p, b, none, _⟩
        · exact value
        · cases none
      rw [getD_value value]
      generalize Heap.edit env w none e = r at opens result ⊢
      obtain ⟨w', arr, ret⟩ := r
      cases ret with
      | none =>
          obtain ⟨cells, rfl, more⟩ := result
          exact h.same at_ cells more
      | some addr =>
          simp only [Option.isSome_some, if_true] at result ⊢
          rcases result with ⟨rfl, empty⟩ | ⟨q, b', rfl, raw', single, content⟩
          · rcases opens.array with ⟨_, cells⟩ | ⟨none, _⟩
            · rw [empty, set_same value]
              exact h.same at_ cells opens.mallocs
            · cases none
          · rcases opens.array with ⟨none, _⟩ | ⟨same, others⟩
            · cases none
            · cases same
              rw [← content]
              exact h.opened at_ opens.mallocs others raw' single
  | some p =>
      obtain ⟨b, cell, raw, some_, count, value⟩ := h.held at_
      have result := edit_edited env raw some_ fine (parted p b rfl cell)
      refine ⟨?_, result.fault⟩
      rw [getD_value value]
      generalize Heap.edit env w (some p) e = r at result ⊢
      obtain ⟨w', arr, ret⟩ := r
      rcases result.bytes with ⟨cells, same, bytes⟩ | ⟨q, b', same, raw', single, was, content⟩
      · have more : w.mallocs ≤ w'.mallocs := result.places.mallocs
        obtain rfl : arr = some p := same
        have keep : (if ret.isSome then ls.set i (e.apply b.content) else ls) = ls := by
          split
          · next done => rw [bytes done, set_same value]
          · rfl
        show Shares w' _ (if ret.isSome then _ else ls)
        rw [keep]
        exact h.same at_ cells more
      · obtain rfl : arr = some q := same
        have owned := h.own at_ cell result.places raw' single was
        have keep : (if ret.isSome then ls.set i (e.apply b.content) else ls) =
            ls.set i b'.content := by
          rw [content]
          split
          · rfl
          · exact (set_same value).symm
        show Shares w' _ (if ret.isSome then _ else ls)
        rw [keep]
        exact owned

/-- An array gives up its buffer and has another that is there already. -/
theorem swap (h : Shares w arrs ls) (at_ : arrs[i]? = some a) {l : List Byte} (differ : a ≠ a')
    (more : w.mallocs ≤ w₁.mallocs)
    (old : ∀ p, a = some p → ∃ b, w.cells p = some b ∧ Released w₁ p b)
    (new : ∀ q, a' = some q →
      ∃ b, w.cells q = some b ∧ w₁.cells q = some { b with refs := b.refs + 1 })
    (others : ∀ x, a ≠ some x → a' ≠ some x → w₁.cells x = w.cells x)
    (value : (a' = none ∧ l = []) ∨ ∃ q b, a' = some q ∧ w.cells q = some b ∧ b.content = l) :
    Shares w₁ (arrs.set i a') (ls.set i l) := by
  refine h.replace at_ (fun x b₀ cell₀ => ?_) ?_ ?_
  · by_cases left : a = some x
    · subst left
      obtain ⟨b, cell, gone⟩ := old x rfl
      exact (h.released at_ cell gone more (Ne.symm differ) cell₀).2
    · by_cases taken : a' = some x
      · obtain ⟨b, cell, raised⟩ := new x taken
        rw [raised] at cell₀
        cases cell₀
        obtain ⟨raw, some_, count⟩ := h.cells x b cell
        refine ⟨⟨raised, Nat.lt_of_lt_of_le raw.made more, raw.traits, raw.used⟩, Nat.succ_pos _, ?_⟩
        rw [count_set at_, if_neg left, if_pos taken, ← count]
        rfl
      · exact h.untouched at_ left taken more (others x left taken) cell₀
  · rcases value with none | ⟨q, b, same, cell, content⟩
    · exact .inl none
    · obtain ⟨b', cell', raised⟩ := new q same
      rw [cell] at cell'
      cases cell'
      exact .inr ⟨q, _, same, raised, content⟩
  · intro j x b₀ ne at_' cell₀
    by_cases left : a = some x
    · subst left
      obtain ⟨b, cell, gone⟩ := old x rfl
      rw [cell] at cell₀
      obtain rfl := Option.some.inj cell₀
      exact ⟨_, h.remains at_ ne at_' cell gone, rfl⟩
    · by_cases taken : a' = some x
      · obtain ⟨b, cell, raised⟩ := new x taken
        rw [cell] at cell₀
        cases cell₀
        exact ⟨_, raised, rfl⟩
      · exact ⟨b₀, (others x left taken).trans cell₀, rfl⟩

/-- An array gives up its buffer. -/
theorem clear (h : Shares w arrs ls) (at_ : arrs[i]? = some a) :
    Shares (arrayClone w a none).1 (arrs.set i none) (ls.set i []) ∧
      (arrayClone w a none).1.fault = w.fault := by
  cases a with
  | none =>
      have value : ls[i]? = some [] := by
        rcases h.values i _ at_ with ⟨_, value⟩ | ⟨p, b, none, _⟩
        · exact value
        · cases none
      rw [set_same value]
      exact ⟨h.same at_ rfl (Nat.le_refl _), rfl⟩
  | some p =>
      obtain ⟨b, cell, raw, some_, _⟩ := h.held at_
      obtain ⟨gone, mallocs, fault, others⟩ := bufferUnref_raw raw some_
      refine ⟨h.swap at_ (by simp) (Nat.le_of_eq mallocs.symm) ?_ (by simp) ?_ (.inl ⟨rfl, rfl⟩),
        fault⟩
      · rintro _ ⟨⟩
        exact ⟨b, cell, gone⟩
      · exact fun x ne _ => others x fun eq => ne (congrArg some eq.symm)

/-- Arrays of one buffer have one value. -/
theorem set_alike {j : Nat} (h : Shares w arrs ls) (at_ : arrs[i]? = some a)
    (from_ : arrs[j]? = some a) : ls.set i (ls.getD j []) = ls := by
  have values : ls[i]? = ls[j]? := by
    rcases h.values i _ at_ with ⟨rfl, value⟩ | ⟨p, b, rfl, cell, value⟩
    · rcases h.values j _ from_ with ⟨_, value'⟩ | ⟨p, b, none, _⟩
      · rw [value, value']
      · cases none
    · obtain ⟨b', cell', _, _, _, value'⟩ := h.held from_
      rw [cell] at cell'
      cases cell'
      rw [value, value']
  rw [List.getD_eq_getElem?_getD, ← values, ← List.getD_eq_getElem?_getD]
  have inside : i < ls.length := by
    rw [← h.size]
    exact (List.getElem?_eq_some_iff.mp at_).1
  exact set_same (by rw [List.getD_eq_getElem?_getD, List.getElem?_eq_getElem inside]; rfl)

/-- The buffers of the arrays have one type. -/
theorem same_types {j : Nat} (h : Shares w arrs ls) (at_ : arrs[i]? = some a)
    (from_ : arrs[j]? = some (some q)) : ¬((a.bind w.cells).isSome ∧
      (w.cells q).bind Buffer.traits ≠ (a.bind w.cells).bind Buffer.traits) := by
  rintro ⟨_, differ⟩
  apply differ
  obtain ⟨c, cell, raw, _⟩ := h.held from_
  rw [cell]
  cases a with
  | none => exact raw.traits
  | some p =>
      obtain ⟨b, cell', raw', _⟩ := h.held at_
      show c.traits = (w.cells p).bind Buffer.traits
      rw [cell', raw.traits]
      exact raw'.traits.symm

/-- The buffer was given, and the one before is released. -/
theorem clone_taken {j n : Nat} {w' : World} {c : Buffer} (h : Shares w arrs ls)
    (at_ : arrs[i]? = some a) (from_ : arrs[j]? = some (some q)) (differ : some q ≠ a)
    (cell : w.cells q = some c) (made : bufferRef w q = (w', n)) (raised : n ≠ 0)
    (mallocs : w'.mallocs = w.mallocs) (fault : w'.fault = w.fault)
    (cells : w'.cells = (w.store q { c with refs := c.refs + 1 }).cells) :
    Shares (arrayClone w a (some (some q))).1 (arrs.set i (arrayClone w a (some (some q))).2.1)
        (if (arrayClone w a (some (some q))).2.2.isOk then ls.set i c.content else ls) ∧
      (arrayClone w a (some (some q))).1.fault = w.fault := by
  have types := h.same_types at_ from_
  obtain ⟨n, rfl⟩ := Nat.exists_eq_succ_of_ne_zero raised
  have here : w'.cells q = some { c with refs := c.refs + 1 } := by
    rw [cells]
    exact World.store_self _ _ _
  have apart (x : Nat) (ne : x ≠ q) : w'.cells x = w.cells x := by
    rw [cells]
    exact store_others w _ ne
  cases a with
  | none =>
      have eq : arrayClone w none (some (some q)) = (w', some q, .ok 1) := by
        unfold arrayClone
        simp only [if_neg differ, if_neg types, made]
        rfl
      rw [eq]
      refine ⟨h.swap at_ (by simp) (Nat.le_of_eq mallocs.symm) (by simp) ?_ ?_
        (.inr ⟨q, c, rfl, cell, rfl⟩), fault⟩
      · rintro _ ⟨⟩
        exact ⟨c, cell, here⟩
      · exact fun x _ ne => apart x fun eq => ne (congrArg some eq.symm)
  | some p =>
      have eq : arrayClone w (some p) (some (some q)) = (bufferUnref w' p, some q, .ok 3) := by
        unfold arrayClone
        simp only [if_neg differ, if_neg types, made]
        rfl
      obtain ⟨b, cell', raw', held', _⟩ := h.held at_
      have ne : p ≠ q := fun eq => differ (congrArg some eq.symm)
      obtain ⟨gone, mallocs', fault', others⟩ :=
        bufferUnref_raw (raw_mono raw' ((apart p ne).trans cell') (Nat.le_of_eq mallocs.symm))
          held'
      rw [eq]
      refine ⟨h.swap at_ (Ne.symm differ) (Nat.le_of_eq (mallocs'.trans mallocs).symm) ?_ ?_ ?_
        (.inr ⟨q, c, rfl, cell, rfl⟩), fault'.trans fault⟩
      · rintro _ ⟨⟩
        exact ⟨b, cell', gone⟩
      · rintro _ ⟨⟩
        exact ⟨c, cell, (others q ne.symm).trans here⟩
      · intro x left taken
        exact (others x fun eq => left (congrArg some eq.symm)).trans
          (apart x fun eq => taken (congrArg some eq.symm))

/-- An array gets the buffer of another, and then its value is that of the other. -/
theorem clone {j : Nat} {src : Array} (h : Shares w arrs ls) (at_ : arrs[i]? = some a)
    (from_ : arrs[j]? = some src) (allowed : src = none → a = none) :
    Shares (arrayClone w a (some src)).1 (arrs.set i (arrayClone w a (some src)).2.1)
        (if (arrayClone w a (some src)).2.2.isOk then ls.set i (ls.getD j []) else ls) ∧
      (arrayClone w a (some src)).1.fault = w.fault := by
  by_cases same : src = a
  · subst same
    have stays : arrayClone w src (some src) = (w, src, .ok 0) := if_pos rfl
    rw [stays, h.set_alike at_ from_, ite_self]
    exact ⟨h.same at_ rfl (Nat.le_refl _), rfl⟩
  · cases src with
    | none => exact absurd (allowed rfl).symm same
    | some q =>
        obtain ⟨c, cell, raw, held, _, value⟩ := h.held from_
        obtain ⟨mallocs, fault, refused | ⟨raised, cells⟩⟩ := bufferRef_raw raw held
        · have eq : arrayClone w a (some (some q)) =
              ((bufferRef w q).1, a, .error .badOperation) := by
            unfold arrayClone
            simp only [if_neg same, if_neg (h.same_types at_ from_)]
            generalize bufferRef w q = r at refused ⊢
            obtain ⟨w', n⟩ := r
            obtain ⟨rfl, _⟩ := refused
            rfl
          rw [eq]
          exact ⟨h.same at_ refused.2 (Nat.le_of_eq mallocs.symm), fault⟩
        · rw [getD_value value]
          exact h.clone_taken at_ from_ same cell rfl raised mallocs fault cells

end Shares

namespace Holders

variable (env : Env) {s : Holders}

theorem step_edit (at_ : s.arrays[i]? = some a) (e : Edit) :
    s.step env (.edit i e) = (⟨(Heap.edit env s.world a e).1,
      s.arrays.set i (Heap.edit env s.world a e).2.1⟩, (Heap.edit env s.world a e).2.2.isSome) := by
  simp only [step, at_]

theorem step_clear (at_ : s.arrays[i]? = some a) :
    s.step env (.clone i none) =
      (⟨(arrayClone s.world a none).1, s.arrays.set i none⟩, true) := by
  simp only [step, at_]
  cases a with
  | none => rfl
  | some p => rfl

theorem step_clone {j : Nat} {src : Array} (at_ : s.arrays[i]? = some a)
    (from_ : s.arrays[j]? = some src) :
    s.step env (.clone i (some j)) = (⟨(arrayClone s.world a (some src)).1,
      s.arrays.set i (arrayClone s.world a (some src)).2.1⟩,
      (arrayClone s.world a (some src)).2.2.isOk) := by
  simp only [step, at_, from_]

/-- Each call keeps the arrays apart. -/
theorem step_shares (h : Shares s.world s.arrays ls) {c : Share} (allowed : c.Allowed s) :
    Shares (s.step env c).1.world (s.step env c).1.arrays
        (if (s.step env c).2 then c.apply ls else ls) ∧
      (s.step env c).1.world.fault = s.world.fault := by
  cases c with
  | edit i e =>
      cases at_ : s.arrays[i]? with
      | none =>
          have eq : s.step env (.edit i e) = (s, false) := by simp only [step, at_]
          rw [eq]
          exact ⟨h, rfl⟩
      | some a =>
          rw [step_edit env at_]
          exact h.edit env at_ (allowed a at_).1 (allowed a at_).2
  | clone i from_ =>
      cases at_ : s.arrays[i]? with
      | none =>
          have eq : s.step env (.clone i from_) = (s, false) := by
            cases from_ with
            | none => simp only [step, at_]
            | some j => simp only [step, at_]
          rw [eq]
          exact ⟨h, rfl⟩
      | some a =>
          cases from_ with
          | none =>
              rw [step_clear env at_]
              exact h.clear at_
          | some j =>
              cases from_ : s.arrays[j]? with
              | none =>
                  have eq : s.step env (.clone i (some j)) = (s, false) := by
                    simp only [step, at_, from_]
                  rw [eq]
                  exact ⟨h, rfl⟩
              | some src =>
                  rw [step_clone env at_ from_]
                  refine h.clone at_ from_ fun none => ?_
                  have both := allowed (none ▸ from_)
                  rw [at_] at both
                  exact Option.some.inj both

end Holders

/-- In a run whose calls meet the condition every array has the bytes that its own edits and
    the values it was cloned from give, whichever arrays share a buffer in between, and every
    buffer counts the arrays that have it and is gone with the last of them. -/
theorem values_apart (env : Env) {s : Holders} (h : Shares s.world s.arrays ls) (cs : List Share)
    (allowed : (Holders.machine env).Meets (fun s c => c.Allowed s) s cs) :
    Shares ((Holders.machine env).after s cs).world ((Holders.machine env).after s cs).arrays
        (Share.applyAll ls cs ((Holders.machine env).outputs s cs)) ∧
      ((Holders.machine env).after s cs).world.fault = s.world.fault := by
  induction cs generalizing s ls with
  | nil => exact ⟨h, rfl⟩
  | cons c cs ih =>
      obtain ⟨first, rest⟩ := allowed
      obtain ⟨next, fault⟩ := Holders.step_shares env h first
      obtain ⟨final, fault'⟩ := ih next rest
      exact ⟨final, fault'.trans fault⟩

/-- Before the first call there is no buffer. -/
theorem Shares.start (n : Nat) :
    Shares .empty (List.replicate n none) (List.replicate n []) := by
  refine ⟨by simp, ?_, ?_⟩
  · intro x b cell
    cases cell
  · intro i a at_
    obtain ⟨inside, rfl⟩ := List.getElem?_eq_some_iff.mp at_
    have bound : i < n := by simpa using inside
    exact .inl ⟨List.getElem_replicate _, by simp [bound]⟩

/-- Two arrays have one buffer until the second is edited. -/
theorem values_apart_two :
    let cs : List Share := [.edit 0 (.append (.bytes [1, 2])), .clone 1 (some 0),
      .edit 1 (.insert 1 [7]), .edit 0 (.cut 0 1)]
    let s := (Holders.machine granting).after ⟨.empty, [none, none]⟩ cs
    Shares s.world s.arrays [[2], [1, 7, 2]] := by
  intro cs
  have allowed : (Holders.machine granting).Meets (fun s c => c.Allowed s)
      ⟨.empty, [none, none]⟩ cs := by
    refine ⟨?_, ?_, ?_, ?_, trivial⟩
    · rintro arr ⟨⟩
      refine ⟨⟨by decide, .inr (.inr (by decide))⟩, ?_⟩
      rintro p b ⟨⟩
    · intro none
      cases none
    · rintro arr ⟨⟩
      exact ⟨.inr (.inr (by decide)), fun _ _ _ _ _ => .inr (by decide)⟩
    · rintro arr ⟨⟩
      refine ⟨(fun zero => by cases zero), ?_⟩
      rintro p b ⟨⟩ cell shared
      cases cell
      cases shared
  exact (values_apart granting (Shares.start 2) cs allowed).1

end Mpt.Heap
