import Mpt.Queue.Prepare

/-! # Reading elements from a stream

`mpt_stream_read` takes whole elements out of the queue and goes to the file when there is
none.  The target moves on by the number of elements, and skipping them only counts if the
bytes that go reach behind the end of the storage.
-/

namespace Mpt

/-- What a round finds when it goes to the file: the memory that a request for space gets, and
    the bytes that `readv` returns if there is room and the file has them.  There are none at
    the end or with an error. -/
structure Reply where
  memory : Option Fresh
  size : Nat

/-- The reading side of `struct stream`, with what is left of the file behind it. -/
structure Source where
  queue : Queue
  file : List Byte
  replies : List Reply
  /-- `_dec` is set. -/
  decodes : Bool
  /-- `_mpt_stream_fread` finds a descriptor. -/
  readable : Bool
  /-- `ReadMap` -/
  mapped : Bool
  /-- `ErrorEmpty` -/
  ended : Bool

/-- `mpt_queue_load`: the queue and what is left of the file. -/
def Queue.load (q : Queue) (file : List Byte) (reply len : Nat) : Option (Queue × List Byte) :=
  match q.empty with
  | none => none
  | some (base, low, high) =>
      -- fill available space, or read only to the aligned part, or to both parts
      let (low, high) :=
        if len = 0 then (low, high)
        else if len < low then (len, 0)
        else if len - low < high then (low, len - low)
        else (low, high)
      let bytes := file.take (min reply (low + high))
      if bytes.length = 0 then
        none
      else
        some ({ q with
          mem := (q.mem.write base (bytes.take low)).write q.base (bytes.drop low)
          len := q.len + bytes.length }, file.drop bytes.length)

namespace Source

open Queue

/-- The space for an element, that there is or that is prepared. -/
def room (q : Queue) (memory : Option Fresh) (part : Nat) : Queue × Nat :=
  let curr := q.max - q.len
  if curr < part then q.prepareSize memory part else (q, curr)

/-- The part of the loop of `mpt_stream_read` that goes to the file, and if it goes on. -/
def fetch (s : Source) (part : Nat) : Source × Bool :=
  if s.mapped ∨ ¬ s.readable then
    (s, false)
  else
    let reply := s.replies.headD ⟨none, 0⟩
    let space := room s.queue reply.memory part
    let s := { s with queue := space.1, replies := s.replies.tail }
    if space.2 = 0 then
      (s, false)
    else
      match s.queue.load s.file reply.size 0 with
      | none => ({ s with ended := true }, false)
      | some (queue, file) => ({ s with queue, file }, true)

/-- The part of the loop that takes `len` bytes from the queue to the address `data`, if there
    is one: the queue, and the target unless the loop ends. -/
def take (q : Queue) (len data : Nat) (m : Mem Byte) : Queue × Option (Mem Byte) :=
  if data = 0 then
    match q.crop 0 len with
    | .ok (q', ret) => (q', if ret = 0 then none else some m)
    | .error _ => (q, some m)
  else
    match q.shift len true with
    | none => (q, none)
    | some (q', bytes) => (q', some (m.write data bytes))

theorem load_nothing (q : Queue) (file : List Byte) (len : Nat) : q.load file 0 len = none := by
  unfold Queue.load
  split
  · rfl
  · simp

theorem replies_fetch {s s' : Source} {part : Nat} (more : s.fetch part = (s', true)) :
    s'.replies.length < s.replies.length := by
  unfold fetch at more
  simp only at more
  split at more
  · cases more
  split at more
  · cases more
  split at more
  · cases more
  · next loaded =>
      cases more
      cases replies : s.replies with
      | nil =>
          rw [replies, List.headD_nil, load_nothing] at loaded
          cases loaded
      | cons reply rest => exact Nat.lt_succ_self _

/-- The loop of `mpt_stream_read`: the count of elements and the target. -/
def readLoop (part count : Nat) (s : Source) (tchunk data : Nat) (m : Mem Byte) :
    Source × Nat × Mem Byte :=
  if _some : s.queue.len / part ≠ 0 then
    let curr := min (s.queue.len / part) (count - tchunk)
    match take s.queue (part * curr) data m with
    | (queue, none) => ({ s with queue }, tchunk, m)
    | (queue, some m) =>
        if _more : tchunk + curr < count then
          readLoop part count { s with queue } (tchunk + curr) (data + curr) m
        else
          ({ s with queue }, tchunk + curr, m)
  else
    match _fetched : s.fetch part with
    | (s', false) => (s', tchunk, m)
    | (s', true) => readLoop part count s' tchunk data m
termination_by (count - tchunk) + s.replies.length
decreasing_by
  · have := Nat.pos_of_ne_zero _some
    simp only [curr] at *
    omega
  · have := replies_fetch _fetched
    omega

/-- `mpt_stream_read` for elements of some size, to the address `data` or to nowhere. -/
def read (s : Source) (count data part : Nat) (m : Mem Byte) : Source × Nat × Mem Byte :=
  if s.decodes then
    (s, 0, m)
  else if count = 0 then
    (s, s.queue.len, m)
  else
    readLoop part count s 0 data m

/-! ## Going to the file -/

/-- What is still to be read: the content of the queue, then the file. -/
def rest (s : Source) : List Byte := s.queue.content ++ s.file

/-- The queue is in order, and it has storage if it has space. -/
structure Sound (q : Queue) : Prop where
  valid : q.Valid
  stored : q.base ≠ 0 ∨ q.max = 0

/-- Bytes that fit into the space follow the content. -/
theorem content_load {q : Queue} (v : q.Valid) {base low high : Nat}
    (space : q.empty = some (base, low, high)) (bytes : List Byte)
    (fits : bytes.length ≤ low + high) :
    ({ q with
      mem := (q.mem.write base (bytes.take low)).write q.base (bytes.drop low)
      len := q.len + bytes.length } : Queue).content = q.content ++ bytes := by
  have off_le := v.off_le
  have len_le := v.len_le
  have stored : ∀ start, start ≤ q.max → base = q.base + start →
      bytes.take low = bytes.take (min (q.max - start) bytes.length) →
      bytes.drop low = bytes.drop (min (q.max - start) bytes.length) →
      (∀ i, q.len + i < q.len + bytes.length → (start + i) % q.max = (q.off + (q.len + i)) % q.max) →
      q.len + bytes.length ≤ q.max →
      ({ q with
        mem := (q.mem.write base (bytes.take low)).write q.base (bytes.drop low)
        len := q.len + bytes.length } : Queue).content = q.content ++ bytes := by
    intro start start_le place front back at_pos room
    have grown : ({ q with len := q.len + bytes.length } : Queue).Valid := ⟨off_le, room⟩
    have content := content_store grown bytes (Nat.le_refl _) start_le at_pos rfl
      (m := (q.mem.write base (bytes.take low)).write q.base (bytes.drop low))
      (by rw [place, front, back])
    refine content.trans ?_
    rw [content_grow, List.drop_eq_nil_of_le (by simp), List.append_nil]
  unfold Queue.empty at space
  simp only at space
  split at space
  · cases space
  split at space
  · cases space
    apply stored (q.len - (q.max - q.off)) (by omega) (by omega)
    · rw [List.take_of_length_le (by omega), List.take_of_length_le (by omega)]
    · rw [List.drop_eq_nil_of_le (by omega), List.drop_eq_nil_of_le (by omega)]
    · intro i inside
      rw [wrap_eq off_le (by omega), Nat.mod_eq_of_lt (by omega), if_neg (by omega)]
      omega
    · omega
  · cases space
    have room : q.max - (q.off + q.len) = q.max - q.len - q.off := by omega
    apply stored (q.off + q.len) (by omega) (by omega)
    · rw [room, List.take_eq_take_min]
    · rw [room]
      rcases Nat.le_total bytes.length (q.max - q.len - q.off) with less | more
      · rw [List.drop_eq_nil_of_le less, Nat.min_eq_right less, List.drop_length]
      · rw [Nat.min_eq_left more]
    · intro i _
      rw [Nat.add_assoc]
    · omega

/-- `mpt_queue_load` without a size moves bytes from the start of the file to the queue. -/
theorem load_spec {q : Queue} (sound : Sound q) {file : List Byte} {reply : Nat} {q' : Queue}
    {file' : List Byte} (loaded : q.load file reply 0 = some (q', file')) :
    Sound q' ∧ q.len < q'.len ∧ q'.content ++ file' = q.content ++ file := by
  unfold Queue.load at loaded
  split at loaded
  · cases loaded
  · next base low high space =>
      simp only [if_true] at loaded
      split at loaded
      · cases loaded
      · next some_ =>
          cases loaded
          have fits : (file.take (min reply (low + high))).length ≤ low + high := by
            rw [List.length_take]
            omega
          have content := content_load sound.valid space _ fits
          rcases empty_spec sound.valid with ⟨_, full⟩ | ⟨_, _, _, _, eq, total⟩
          · rw [full] at space
            cases space
          · rw [eq] at space
            cases space
            have off_le := sound.valid.off_le
            refine ⟨⟨⟨off_le, by simp only; omega⟩, sound.stored⟩, by simp only; omega, ?_⟩
            rw [content, List.append_assoc]
            congr 1
            obtain ⟨tail, whole⟩ := List.take_prefix (min reply (low + high)) file
            have behind : (file.take (min reply (low + high)) ++ tail).drop
                (file.take (min reply (low + high))).length = tail := List.drop_left
            rw [whole] at behind
            rw [behind, whole]

/-- Without memory nothing of the content is lost. -/
theorem prepare_refused {q : Queue} (sound : Sound q) {len : Nat} (more : q.max - q.len < len)
    (small : 2 * len ≤ sizeMax) :
    ∃ p, q.prepare none len = (p, 0) ∧ Sound p ∧ p.content = q.content := by
  have len_le := sound.valid.len_le
  obtain ⟨p, eq, valid, _, base, max, _, content⟩ := unbroken sound.valid sound.stored
  have grown := le_alignSize (len - (q.max - q.len) + q.max)
  generalize total : alignSize (len - (q.max - q.len) + q.max) = n at grown
  have refused : q.resize none n = (p, false) := by
    unfold resize
    rw [if_neg (by omega), if_neg (by omega), if_pos (by omega), eq]
  refine ⟨p, ?_, ⟨valid, by rw [base, max]; exact sound.stored⟩, content⟩
  unfold prepare
  simp only [total]
  rw [if_pos more, if_neg (by omega), refused]

/-- An element is so small that the sum of the sizes does not wrap around. -/
def Small (part : Nat) : Prop := 0 < part ∧ 2 * part ≤ 2 ^ 64 - 8

/-- The space for another element. -/
theorem room_spec {q : Queue} (sound : Sound q) {part : Nat} (small : Small part)
    (less : q.len < part) (memory : Option Fresh) :
    Sound (room q memory part).1 ∧ (room q memory part).1.content = q.content := by
  unfold room
  simp only
  by_cases more : q.max - q.len < part
  · have sum : 2 * part ≤ sizeMax := by
      have := small.2
      unfold sizeMax
      omega
    rw [if_pos more, prepareSize_prepare sound.valid (by have := small.2; omega)]
    cases memory with
    | none =>
        obtain ⟨p, eq, sound', content⟩ := prepare_refused sound more sum
        rw [eq]
        exact ⟨sound', content⟩
    | some f =>
        obtain ⟨q', left, eq, _, valid, base, content, _, _⟩ :=
          prepare_spec sound.valid sound.stored f small.1 sum
        rw [eq]
        exact ⟨⟨valid, .inl base⟩, content⟩
  · rw [if_neg more]
    exact ⟨sound, rfl⟩

/-- Going to the file keeps what is to be read, and the loop goes on with more in the queue. -/
theorem fetch_spec {s s' : Source} (sound : Sound s.queue) {part : Nat} (small : Small part)
    (less : s.queue.len < part) {more : Bool} (fetched : s.fetch part = (s', more)) :
    Sound s'.queue ∧ s'.rest = s.rest := by
  unfold fetch at fetched
  simp only at fetched
  obtain ⟨sound', content⟩ := room_spec sound small less (s.replies.headD ⟨none, 0⟩).memory
  have kept : (room s.queue (s.replies.headD ⟨none, 0⟩).memory part).1.content ++ s.file =
      s.rest := by
    rw [content]
    rfl
  split at fetched
  · cases fetched
    exact ⟨sound, rfl⟩
  split at fetched
  · cases fetched
    exact ⟨sound', kept⟩
  split at fetched
  · cases fetched
    exact ⟨sound', kept⟩
  · next loaded =>
      cases fetched
      obtain ⟨sound'', _, whole⟩ := load_spec sound' loaded
      exact ⟨sound'', whole.trans kept⟩

/-- The rounds at the file until there is an element in the queue. -/
inductive Brings (part : Nat) : Source → Source → Prop where
  | here {s : Source} : part ≤ s.queue.len → Brings part s s
  | more {s s' s'' : Source} : s.queue.len < part → s.fetch part = (s', true) →
      Brings part s' s'' → Brings part s s''

section

variable {part count : Nat} {s s₁ : Source}

theorem Brings.spec (small : Small part) (brings : s.Brings part s₁) (sound : Sound s.queue) :
    Sound s₁.queue ∧ s₁.rest = s.rest ∧ part ≤ s₁.queue.len := by
  induction brings with
  | here some => exact ⟨sound, rfl, some⟩
  | more less fetched _ ih =>
      obtain ⟨sound', kept⟩ := fetch_spec sound small less fetched
      obtain ⟨sound₁, rest, some⟩ := ih sound'
      exact ⟨sound₁, rest.trans kept, some⟩

theorem readLoop_fetch (less : s.queue.len < part) (t d : Nat) (m : Mem Byte) :
    readLoop part count s t d m =
      if (s.fetch part).2 then readLoop part count (s.fetch part).1 t d m
      else ((s.fetch part).1, t, m) := by
  rw [readLoop, dif_neg (by rw [Nat.div_eq_of_lt less]; exact not_not.mpr rfl)]
  split
  · next eq =>
      rw [eq]
      rfl
  · next eq =>
      rw [eq]
      rfl

theorem Brings.run (brings : s.Brings part s₁) (t d : Nat) (m : Mem Byte) :
    readLoop part count s t d m = readLoop part count s₁ t d m := by
  induction brings with
  | here _ => rfl
  | more less fetched _ ih =>
      rw [readLoop_fetch less, fetched]
      exact ih

/-- Where no element comes, the loop ends with what it has. -/
theorem readLoop_ends (count : Nat) (small : Small part) (sound : Sound s.queue)
    (nothing : ∀ s₁, ¬ s.Brings part s₁) :
    ∃ s', s'.rest = s.rest ∧ Sound s'.queue ∧
      ∀ t d m, readLoop part count s t d m = (s', t, m) := by
  induction replies : s.replies.length using Nat.strongRecOn generalizing s with
  | ind n ih =>
      have less : s.queue.len < part := by
        by_contra some
        exact nothing s (.here (Nat.le_of_not_lt some))
      rcases fetched : s.fetch part with ⟨s', _ | _⟩
      · obtain ⟨sound', kept⟩ := fetch_spec sound small less fetched
        refine ⟨s', kept, sound', ?_⟩
        intro t d m
        rw [readLoop_fetch less, fetched]
        rfl
      · obtain ⟨sound', kept⟩ := fetch_spec sound small less fetched
        have shorter := replies_fetch fetched
        obtain ⟨s'', rest, sound'', run⟩ := ih _ (by omega) sound'
          (fun s₁ brings => nothing s₁ (.more less fetched brings)) rfl
        refine ⟨s'', rest.trans kept, sound'', ?_⟩
        intro t d m
        rw [readLoop_fetch less, fetched]
        exact run t d m

/-- The elements that are taken from the queue at once. -/
def chunk (s : Source) (part left : Nat) : Nat := min (s.queue.len / part) left

/-- The stream without the first bytes of its queue. -/
def taken (s : Source) (n : Nat) : Source := { s with queue := s.queue.dropFront n }

theorem chunk_spec (small : Small part) (some : part ≤ s.queue.len) (left : Nat) (pos : 0 < left) :
    0 < s.chunk part left ∧ s.chunk part left ≤ left ∧ part * s.chunk part left ≤ s.queue.len := by
  have quotient : 0 < s.queue.len / part := Nat.div_pos some small.1
  refine ⟨Nat.lt_min.mpr ⟨quotient, pos⟩, Nat.min_le_right _ _, ?_⟩
  calc part * s.chunk part left
      ≤ part * (s.queue.len / part) := Nat.mul_le_mul_left _ (Nat.min_le_left _ _)
    _ ≤ s.queue.len := Nat.mul_div_le _ _

theorem taken_spec (sound : Sound s.queue) {n : Nat} (fits : n ≤ s.queue.len) :
    Sound (s.taken n).queue ∧ (s.taken n).rest = s.rest.drop n ∧ n ≤ s.rest.length ∧
      s.rest.take n = s.queue.content.take n := by
  refine ⟨⟨dropFront_valid sound.valid fits, sound.stored⟩, ?_, ?_, ?_⟩
  · unfold rest taken
    rw [content_dropFront sound.valid, List.drop_append_of_le_length (by simpa using fits)]
  · unfold rest
    rw [List.length_append, length_content]
    omega
  · unfold rest
    rw [List.take_append_of_le_length (by simpa using fits)]

theorem take_target (sound : Sound s.queue) {n d : Nat} (fits : n ≤ s.queue.len) (target : d ≠ 0)
    (m : Mem Byte) :
    take s.queue n d m = ((s.taken n).queue, some (m.write d (s.rest.take n))) := by
  obtain ⟨_, _, _, front⟩ := taken_spec sound fits
  unfold take
  rw [if_neg target]
  rcases shift_spec sound.valid n true with ⟨_, eq⟩ | eq
  · rw [eq, front]
    rfl
  · exact absurd eq (shift_some sound.valid fits)

/-- Bytes that do not reach behind the first part of the queue are removed without success. -/
theorem take_none {n : Nat} (fits : n ≤ s.queue.len) (m : Mem Byte) :
    take s.queue n 0 m =
      ((s.taken n).queue, if n ≤ s.queue.data.2 then none else some m) := by
  have low_le : s.queue.data.2 ≤ s.queue.len := by
    rw [data_eq]
    exact Nat.min_le_right _ _
  unfold take crop taken dropFront advance
  simp only [if_true]
  rw [if_neg (by omega)]
  rw [data_eq] at *
  simp only at *
  rcases Nat.lt_trichotomy n (min (s.queue.max - s.queue.off) s.queue.len) with less | same | more
  · rw [if_neg (by omega), if_neg (by omega), if_pos (Nat.le_of_lt less)]
    rfl
  · rw [if_pos (by omega), if_pos (by omega), if_pos (by omega)]
    simp [same]
  · rw [if_pos (by omega), if_neg (by omega), if_pos (by omega), if_neg (by omega)]
    rfl

theorem readLoop_copy (count : Nat) (small : Small part) (sound : Sound s.queue)
    (some : part ≤ s.queue.len) {t d : Nat} (less : t < count) (target : d ≠ 0) (m : Mem Byte) :
    readLoop part count s t d m =
      if t + s.chunk part (count - t) < count then
        readLoop part count (s.taken (part * s.chunk part (count - t)))
          (t + s.chunk part (count - t)) (d + s.chunk part (count - t))
          (m.write d (s.rest.take (part * s.chunk part (count - t))))
      else
        (s.taken (part * s.chunk part (count - t)), t + s.chunk part (count - t),
          m.write d (s.rest.take (part * s.chunk part (count - t)))) := by
  obtain ⟨_, _, fits⟩ := chunk_spec small some (count - t) (by omega)
  have quotient : s.queue.len / part ≠ 0 := Nat.pos_iff_ne_zero.mp (Nat.div_pos some small.1)
  have chunk_eq : min (s.queue.len / part) (count - t) = s.chunk part (count - t) := rfl
  rw [readLoop, dif_pos quotient]
  simp only [chunk_eq, take_target sound fits target]
  rfl

/-- Skipping counts if the bytes reach behind the first part of the queue. -/
theorem readLoop_skip (count : Nat) (small : Small part) (some : part ≤ s.queue.len)
    {t : Nat} (less : t < count) (m : Mem Byte) :
    readLoop part count s t 0 m =
      if part * s.chunk part (count - t) ≤ s.queue.data.2 then
        (s.taken (part * s.chunk part (count - t)), t, m)
      else if t + s.chunk part (count - t) < count then
        readLoop part count (s.taken (part * s.chunk part (count - t)))
          (t + s.chunk part (count - t)) (s.chunk part (count - t)) m
      else
        (s.taken (part * s.chunk part (count - t)), t + s.chunk part (count - t), m) := by
  obtain ⟨_, _, fits⟩ := chunk_spec small some (count - t) (by omega)
  have quotient : s.queue.len / part ≠ 0 := Nat.pos_iff_ne_zero.mp (Nat.div_pos some small.1)
  rw [readLoop, dif_pos quotient]
  have chunk_eq : min (s.queue.len / part) (count - t) = s.chunk part (count - t) := rfl
  simp only [chunk_eq, take_none fits, Nat.zero_add]
  by_cases low : part * s.chunk part (count - t) ≤ s.queue.data.2
  · simp only [if_pos low]
    rfl
  · simp only [if_neg low]
    rfl

/-- The memory from `d` on that a loop stores elements to stays the same before it and behind
    the bytes of the elements; for bytes it is all of them in a row. -/
theorem readLoop_copies (small : Small part) {t d : Nat} (sound : Sound s.queue)
    (less : t < count) (target : d ≠ 0) :
    ∃ s' n, t + n ≤ count ∧ Sound s'.queue ∧ part * n ≤ s.rest.length ∧
      s'.rest = s.rest.drop (part * n) ∧ ((∃ s₁, s.Brings part s₁) → 0 < n) ∧
      ∀ m, ∃ m', readLoop part count s t d m = (s', t + n, m') ∧
        (∀ a, a < d ∨ d + part * n ≤ a → m' a = m a) ∧
        (0 < n → s.rest[0]? = some (m' d)) ∧
        (part = 1 → m' = m.write d (s.rest.take (part * n))) := by
  induction size : count - t using Nat.strongRecOn generalizing s t d with
  | ind left ih =>
      by_cases nothing : ∀ s₁, ¬ s.Brings part s₁
      · obtain ⟨s', rest, sound', run⟩ := readLoop_ends count small sound nothing
        refine ⟨s', 0, by omega, sound', Nat.zero_le _, by simpa using rest,
          fun ⟨s₁, brings⟩ => absurd brings (nothing s₁), ?_⟩
        intro m
        exact ⟨m, run t d m, fun _ _ => rfl, fun none => absurd none (Nat.lt_irrefl 0), by simp⟩
      obtain ⟨s₁, brings⟩ := not_forall_not.mp nothing
      obtain ⟨sound₁, rest₁, some_⟩ := brings.spec small sound
      obtain ⟨pos, le, fits⟩ := chunk_spec small some_ (count - t) (by omega)
      have copy := fun m =>
        (brings.run t d m).trans (readLoop_copy count small sound₁ some_ less target m)
      generalize s₁.chunk part (count - t) = k at pos le fits copy
      obtain ⟨sound₂, rest₂, inside, _⟩ := taken_spec sound₁ fits
      have bytes : part * 1 ≤ part * k := Nat.mul_le_mul_left _ pos
      have written : (s₁.rest.take (part * k)).length = part * k := by
        rw [List.length_take]
        omega
      have some_part := small.1
      have first : ∀ m : Mem Byte, s₁.rest[0]? = some ((m.write d (s₁.rest.take (part * k))) d) := by
        intro m
        have stored := Mem.write_inside m d (s₁.rest.take (part * k)) (i := 0) (by omega)
        rw [Nat.add_zero] at stored
        rw [stored, List.getElem_take, List.getElem?_eq_getElem]
      rw [rest₁] at *
      by_cases last : t + k < count
      · obtain ⟨s', n, le', sound', fits', rest', _, run⟩ := ih (count - (t + k)) (by omega) sound₂
          last (d := d + k) (by omega) rfl
        rw [rest₂, List.length_drop] at fits'
        refine ⟨s', k + n, by omega, sound', ?_, ?_, fun _ => by omega, ?_⟩
        · rw [Nat.mul_add]
          omega
        · rw [rest', rest₂, List.drop_drop, Nat.mul_add]
        intro m
        obtain ⟨m', eq, frame, _, all⟩ := run (m.write d (s.rest.take (part * k)))
        refine ⟨m', ?_, ?_, ?_, ?_⟩
        · rw [copy m, if_pos last, eq, Nat.add_assoc]
        · intro a outside
          have shorter : 1 * k ≤ part * k := Nat.mul_le_mul_right _ small.1
          rw [Nat.mul_add] at outside
          rw [frame a (by omega), Mem.write_outside _ _ (by omega)]
        · intro _
          rw [first m, frame d (.inl (by omega))]
        · rintro rfl
          rw [all rfl, rest₂, Nat.mul_add, List.take_add, Mem.write_append, written]
          simp
      · refine ⟨_, k, by omega, sound₂, inside, rest₂, fun _ => pos, ?_⟩
        intro m
        refine ⟨_, by rw [copy m, if_neg last], ?_, fun _ => first m, fun _ => rfl⟩
        intro a outside
        exact Mem.write_outside _ _ (by omega)

/-- Whatever the target holds before, the elements that are counted are the next bytes of the
    stream, stored in a row at `data` if there is a target, and the others are left. -/
def Reads (s : Source) (count data part : Nat) : Prop :=
  ∃ s' r, r ≤ count ∧ part * r ≤ s.rest.length ∧ s'.rest = s.rest.drop (part * r) ∧
    ∀ m, s.read count data part m =
      (s', r, if data = 0 then m else m.write data (s.rest.take (part * r)))

/-- Nothing is in the queue if no element is asked for.  Otherwise no element comes, or the
    first ones that come reach behind the first part of the queue where they are skipped, and
    they are all, or no other comes, or they are bytes for a target. -/
def Once (s : Source) (count data part : Nat) : Prop :=
  if count = 0 then
    s.queue.len = 0
  else
    ∀ s₁, s.Brings part s₁ →
      (data = 0 → s₁.queue.data.2 < part * s₁.chunk part count) ∧
      (data ≠ 0 ∧ part = 1 ∨ s₁.chunk part count = count ∨
        ∀ s₂, ¬ (s₁.taken (part * s₁.chunk part count)).Brings part s₂)

/-- The target after the first `n` bytes of the stream. -/
def stored (s : Source) (data n : Nat) (m : Mem Byte) : Mem Byte :=
  if data = 0 then m else m.write data (s.rest.take n)

theorem read_loop {data : Nat} (undecoded : s.decodes = false) (some : 0 < count) (m : Mem Byte) :
    s.read count data part m = readLoop part count s 0 data m := by
  unfold read
  rw [undecoded, if_neg (by simp), if_neg (by omega)]

/-- The first elements that come. -/
theorem read_first {data : Nat} (small : Small part) (sound : Sound s.queue)
    (undecoded : s.decodes = false) (some_ : 0 < count) (brings : s.Brings part s₁)
    (behind : data = 0 → s₁.queue.data.2 < part * s₁.chunk part count) (m : Mem Byte) :
    s.read count data part m =
      if s₁.chunk part count < count then
        readLoop part count (s₁.taken (part * s₁.chunk part count)) (s₁.chunk part count)
          (data + s₁.chunk part count) (s.stored data (part * s₁.chunk part count) m)
      else
        (s₁.taken (part * s₁.chunk part count), s₁.chunk part count,
          s.stored data (part * s₁.chunk part count) m) := by
  obtain ⟨sound₁, rest₁, enough⟩ := brings.spec small sound
  rw [read_loop undecoded some_, brings.run]
  unfold stored
  by_cases target : data = 0
  · subst target
    have skip := readLoop_skip count small enough some_ m
    rw [Nat.sub_zero, if_neg (Nat.not_le.mpr (behind rfl))] at skip
    rw [skip, if_pos rfl, Nat.zero_add]
  · have copy := readLoop_copy count small sound₁ enough some_ target m
    rw [Nat.sub_zero, Nat.zero_add, rest₁] at copy
    rw [copy, if_neg target]

theorem once_reads {data : Nat} (small : Small part) (sound : Sound s.queue)
    (undecoded : s.decodes = false) (once : s.Once count data part) : s.Reads count data part := by
  unfold Once at once
  split at once
  · next none =>
      refine ⟨s, 0, Nat.zero_le _, Nat.zero_le _, rfl, ?_⟩
      intro m
      unfold read
      rw [undecoded, if_neg (by simp), if_pos none, once]
      simp
  · next some_ =>
      have pos := Nat.pos_of_ne_zero some_
      by_cases nothing : ∀ s₁, ¬ s.Brings part s₁
      · obtain ⟨s', rest, _, run⟩ := readLoop_ends count small sound nothing
        refine ⟨s', 0, Nat.zero_le _, Nat.zero_le _, rest, ?_⟩
        intro m
        rw [read_loop undecoded pos, run]
        simp
      obtain ⟨s₁, brings⟩ := not_forall_not.mp nothing
      obtain ⟨behind, rest⟩ := once s₁ brings
      obtain ⟨sound₁, rest₁, enough⟩ := brings.spec small sound
      obtain ⟨_, le, fits⟩ := chunk_spec small enough count pos
      obtain ⟨sound₂, rest₂, inside, _⟩ := taken_spec sound₁ fits
      have first := read_first small sound undecoded pos brings behind
      rw [rest₁] at rest₂ inside
      rcases rest with ⟨target, rfl⟩ | rest
      · obtain ⟨s', n, le', _, fits', rest', _, run⟩ :=
          readLoop_copies small sound pos target
        refine ⟨s', n, by omega, fits', rest', ?_⟩
        intro m
        obtain ⟨m', eq, _, _, all⟩ := run m
        rw [read_loop undecoded pos, eq, if_neg target, all rfl, Nat.zero_add]
      by_cases last : s₁.chunk part count < count
      · obtain ⟨s', rest', _, run⟩ := readLoop_ends count small sound₂
          (rest.resolve_left (by omega))
        refine ⟨s', s₁.chunk part count, le, inside, rest'.trans rest₂, ?_⟩
        intro m
        rw [first m, if_pos last, run]
        rfl
      · refine ⟨_, s₁.chunk part count, le, inside, rest₂, ?_⟩
        intro m
        rw [first m, if_neg last]
        rfl

/-- Skipped bytes that lie in the first part of the queue are lost. -/
theorem not_reads_skipped (small : Small part) (sound : Sound s.queue)
    (undecoded : s.decodes = false) (some_ : 0 < count) (brings : s.Brings part s₁)
    (front : part * s₁.chunk part count ≤ s₁.queue.data.2) : ¬ s.Reads count 0 part := by
  obtain ⟨sound₁, rest₁, enough⟩ := brings.spec small sound
  obtain ⟨pos, _, fits⟩ := chunk_spec small enough count some_
  obtain ⟨_, rest₂, inside, _⟩ := taken_spec sound₁ fits
  have skip := fun m => readLoop_skip count small enough some_ m
  rintro ⟨s', r, _, _, rest, run⟩
  have ends := run (fun _ => 0)
  rw [Nat.sub_zero] at skip
  rw [read_loop undecoded some_, brings.run, skip, if_pos front] at ends
  cases ends
  rw [rest₂, rest₁, Nat.mul_zero, List.drop_zero] at rest
  have sizes := congrArg List.length rest
  have bytes := Nat.mul_pos small.1 pos
  rw [rest₁] at inside
  rw [List.length_drop] at sizes
  omega

theorem other_byte (b : Byte) : ∃ c : Byte, c ≠ b := by
  by_cases zero : b = 0
  · exact ⟨1, by rw [zero]; decide⟩
  · exact ⟨0, fun same => zero same.symm⟩

/-- Other elements behind the first ones are stored at the wrong address. -/
theorem not_reads_more {data : Nat} (small : Small part) (sound : Sound s.queue)
    (undecoded : s.decodes = false) (some_ : 0 < count) (brings : s.Brings part s₁)
    (behind : data = 0 → s₁.queue.data.2 < part * s₁.chunk part count)
    (large : ¬ (data ≠ 0 ∧ part = 1)) (left : s₁.chunk part count ≠ count)
    (more : ∃ s₂, (s₁.taken (part * s₁.chunk part count)).Brings part s₂) :
    ¬ s.Reads count data part := by
  obtain ⟨sound₁, rest₁, enough⟩ := brings.spec small sound
  have first := read_first small sound undecoded some_ brings behind
  obtain ⟨pos, le, fits⟩ := chunk_spec small enough count some_
  generalize s₁.chunk part count = k at *
  obtain ⟨sound₂, rest₂, inside, _⟩ := taken_spec sound₁ fits
  obtain ⟨s', n, _, _, fits', rest', came, run⟩ :=
    readLoop_copies small sound₂ (show k < count by omega) (d := data + k) (by omega)
  have other := came more
  have bytes : part * 1 ≤ part * n := Nat.mul_le_mul_left _ other
  have some_part := small.1
  rintro ⟨p, r, _, whole, rest, reads⟩
  by_cases target : data = 0
  · -- the second elements are stored although there is no target
    subst target
    obtain ⟨_, _, _, stored, _⟩ := run (fun _ => 0)
    obtain ⟨b, ne⟩ := other_byte ((s₁.taken (part * k)).rest.headD 0)
    obtain ⟨m', eq, _, head, _⟩ := run (fun _ => b)
    have both := (first (fun _ => b)).symm.trans (reads fun _ => b)
    unfold Source.stored at both
    rw [if_pos (by omega), if_pos rfl, eq] at both
    cases both
    have byte := head other
    rw [← List.head?_eq_getElem?] at byte
    rw [List.headD_eq_head?_getD, byte] at ne
    exact ne rfl
  · -- the last byte is not stored
    have double : 2 * k ≤ part * k := Nat.mul_le_mul_right _ (by omega)
    have total : part * (k + n) = part * k + part * n := Nat.mul_add _ _ _
    have count_eq : r = k + n := by
      obtain ⟨m', eq, _⟩ := run (s.stored data (part * k) (fun _ => 0))
      have both := (first (fun _ => 0)).symm.trans (reads fun _ => 0)
      rw [if_pos (by omega), eq] at both
      cases both
      rfl
    subst count_eq
    obtain ⟨b, ne⟩ := other_byte (s.rest.get ⟨part * (k + n) - 1, by omega⟩)
    obtain ⟨m', eq, frame, _⟩ := run (s.stored data (part * k) (fun _ => b))
    have both := (first (fun _ => b)).symm.trans (reads fun _ => b)
    rw [if_pos (by omega), eq, if_neg target] at both
    simp only [Prod.mk.injEq, true_and] at both
    have kept := frame (data + (part * (k + n) - 1)) (by omega)
    unfold Source.stored at kept
    rw [both.2, if_neg target, Mem.write_inside _ _ _ (by rw [List.length_take]; omega),
      List.getElem_take, Mem.write_outside _ _ (by rw [List.length_take]; omega)] at kept
    exact ne kept.symm

theorem reads_iff {data : Nat} (small : Small part) (sound : Sound s.queue)
    (undecoded : s.decodes = false) : s.Reads count data part ↔ s.Once count data part := by
  refine ⟨?_, once_reads small sound undecoded⟩
  intro reads
  unfold Once
  split
  · next none =>
      obtain ⟨s', r, le, _, _, run⟩ := reads
      have ends := run (fun _ => 0)
      unfold read at ends
      rw [undecoded, if_neg (by simp), if_pos none] at ends
      simp only [Prod.mk.injEq] at ends
      omega
  · next some_ =>
      have pos := Nat.pos_of_ne_zero some_
      intro s₁ brings
      have behind : data = 0 → s₁.queue.data.2 < part * s₁.chunk part count := by
        rintro rfl
        by_contra front
        exact not_reads_skipped small sound undecoded pos brings (Nat.le_of_not_lt front) reads
      refine ⟨behind, ?_⟩
      by_contra apart
      rw [not_or, not_or] at apart
      obtain ⟨large, left, more⟩ := apart
      exact not_reads_more small sound undecoded pos brings behind large left
        (not_forall_not.mp more) reads

/-! ## A read in several parts -/

theorem take_sound (sound : Sound s.queue) (n d : Nat) (m : Mem Byte) :
    Sound (take s.queue n d m).1 := by
  unfold take
  split
  · rcases s.queue.crop_front n with ⟨fits, ret, eq⟩ | ⟨_, eq⟩
    · rw [eq]
      exact ⟨dropFront_valid sound.valid fits, sound.stored⟩
    · rw [eq]
      exact sound
  · rcases shift_spec sound.valid n true with ⟨fits, eq⟩ | eq
    · rw [eq]
      exact ⟨dropFront_valid sound.valid fits, sound.stored⟩
    · rw [eq]
      exact sound

theorem decodes_fetch (s : Source) (part : Nat) : (s.fetch part).1.decodes = s.decodes := by
  unfold fetch
  simp only
  split
  · rfl
  split
  · rfl
  split <;> rfl

theorem readLoop_sound (small : Small part) (sound : Sound s.queue) (t d : Nat) (m : Mem Byte) :
    Sound (readLoop part count s t d m).1.queue ∧
      (readLoop part count s t d m).1.decodes = s.decodes := by
  fun_induction readLoop part count s t d m with
  | case1 s t d m _ curr q taken =>
      have kept := take_sound sound (part * curr) d m
      rw [taken] at kept
      exact ⟨kept, rfl⟩
  | case2 s t d m _ curr q m' taken _ ih =>
      have kept := take_sound sound (part * curr) d m
      rw [taken] at kept
      exact ih kept
  | case3 s t d m _ curr q m' taken _ =>
      have kept := take_sound sound (part * curr) d m
      rw [taken] at kept
      exact ⟨kept, rfl⟩
  | case4 s t d m none s' fetched =>
      have less := Nat.lt_of_not_le fun le => none (Nat.pos_iff_ne_zero.mp (Nat.div_pos le small.1))
      have kept := decodes_fetch s part
      rw [fetched] at kept
      exact ⟨(fetch_spec sound small less fetched).1, kept⟩
  | case5 s t d m none s' fetched ih =>
      have less := Nat.lt_of_not_le fun le => none (Nat.pos_iff_ne_zero.mp (Nat.div_pos le small.1))
      have kept := decodes_fetch s part
      rw [fetched] at kept
      obtain ⟨sound', same⟩ := ih (fetch_spec sound small less fetched).1
      exact ⟨sound', same.trans kept⟩

theorem read_sound (count : Nat) (small : Small part) (sound : Sound s.queue) (data : Nat)
    (m : Mem Byte) :
    Sound (s.read count data part m).1.queue ∧ (s.read count data part m).1.decodes = s.decodes := by
  unfold read
  split
  · exact ⟨sound, rfl⟩
  split
  · exact ⟨sound, rfl⟩
  · exact readLoop_sound small sound 0 data m

/-- The address behind the elements that were read. -/
def nextTarget (part data done : Nat) : Nat := if data = 0 then 0 else data + part * done

/-- Calls one after the other, each for the elements behind those of the last one. -/
def readAll (part data : Nat) : List Nat → Source → (done : Nat) → Mem Byte →
    Source × Nat × Mem Byte
  | [], s, done, m => (s, done, m)
  | count :: counts, s, done, m =>
      let (s', r, m') := s.read count (nextTarget part data done) part m
      readAll part data counts s' (done + r) m'

/-- Each of the calls finds what `Once` says. -/
def AllOnce (part data : Nat) : List Nat → Source → (done : Nat) → Prop
  | [], _, _ => True
  | count :: counts, s, done =>
      s.Once count (nextTarget part data done) part ∧
        ∀ s' r, (∀ m, ∃ m', s.read count (nextTarget part data done) part m = (s', r, m')) →
          AllOnce part data counts s' (done + r)

theorem readAll_reads (small : Small part) {data : Nat} (counts : List Nat) {done : Nat}
    (sound : Sound s.queue) (undecoded : s.decodes = false)
    (once : AllOnce part data counts s done) :
    ∃ s' r, r ≤ counts.sum ∧ part * r ≤ s.rest.length ∧ s'.rest = s.rest.drop (part * r) ∧
      ∀ m, readAll part data counts s done m =
        (s', done + r, s.stored (nextTarget part data done) (part * r) m) := by
  induction counts generalizing s done with
  | nil =>
      refine ⟨s, 0, Nat.le_refl _, Nat.zero_le _, rfl, ?_⟩
      intro m
      simp [readAll, Source.stored]
  | cons count counts ih =>
      obtain ⟨first, others⟩ := once
      obtain ⟨s', r, le, fits, rest, run⟩ := once_reads small sound undecoded first
      obtain ⟨sound', same⟩ := read_sound count small sound
        (nextTarget part data done) (fun _ => 0)
      rw [run] at sound' same
      obtain ⟨s'', r', le', fits', rest', run'⟩ := ih sound' (same.trans undecoded)
        (others s' r fun m => ⟨_, run m⟩)
      rw [rest, List.length_drop] at fits'
      have total : part * (r + r') = part * r + part * r' := Nat.mul_add _ _ _
      refine ⟨s'', r + r', ?_, by omega, ?_, ?_⟩
      · rw [List.sum_cons]
        omega
      · rw [rest', rest, List.drop_drop, total]
      intro m
      unfold readAll
      rw [run]
      simp only
      rw [run', Nat.add_assoc]
      congr 2
      unfold Source.stored nextTarget
      by_cases target : data = 0
      · simp only [if_pos target, if_true]
      · have apart : ∀ n, data + part * n ≠ 0 := fun n => by omega
        simp only [if_neg target, apart, if_false]
        rw [total, List.take_add, Mem.write_append, List.length_take, Nat.min_eq_left fits, rest,
          Nat.mul_add, Nat.add_assoc]

end

/-- `mpt_stream_read` counts, stores and leaves what it should if and only if no element
    comes, or the first ones that come are all there are, unless they are single bytes for a
    target; those that are skipped have to reach behind the first part of the queue.  Calls
    for which this holds one after the other give the same bytes as one. -/
theorem read_once {s : Source} {part : Nat} (small : Small part) (sound : Sound s.queue)
    (undecoded : s.decodes = false) :
    (∀ count data, s.Reads count data part ↔ s.Once count data part) ∧
    ∀ counts data, AllOnce part data counts s 0 →
      ∃ s' r, r ≤ counts.sum ∧ part * r ≤ s.rest.length ∧ s'.rest = s.rest.drop (part * r) ∧
        ∀ m, readAll part data counts s 0 m =
          (s', r, if data = 0 then m else m.write data (s.rest.take (part * r))) := by
  refine ⟨fun count data => reads_iff small sound undecoded, ?_⟩
  intro counts data once
  obtain ⟨s', r, le, fits, rest, run⟩ := readAll_reads small counts sound undecoded once
  refine ⟨s', r, le, fits, rest, ?_⟩
  intro m
  rw [run, Nat.zero_add]
  unfold Source.stored nextTarget
  by_cases target : data = 0
  · simp only [if_pos target, if_true]
  · simp only [if_neg target, Nat.mul_zero, Nat.add_zero]

/-- A stream with `len` bytes in its queue and two in the file. -/
def eightBytes (len : Nat) : Source :=
  ⟨⟨fun a => .ofNat a, 16, len, 8, 0⟩, [1, 2], [⟨none, 2⟩], false, true, false, false⟩

theorem read_once_queue : (eightBytes 4).Reads 2 64 2 := by
  refine ((read_once ⟨by decide, by decide⟩ ⟨⟨by decide, by decide⟩, .inl (by decide)⟩ rfl).1
    2 64).mpr ?_
  unfold Once
  rw [if_neg (by decide)]
  intro s₁ brings
  cases brings with
  | here _ => exact ⟨nofun, .inr (.inl rfl)⟩
  | more less _ _ => exact absurd less (by decide)

/-- The second element is stored one byte behind the start of the first. -/
theorem read_advances :
    Small 2 ∧ Sound (eightBytes 2).queue ∧ ¬ (eightBytes 2).Reads 2 64 2 := by
  have small : Small 2 := ⟨by decide, by decide⟩
  have sound : Sound (eightBytes 2).queue := ⟨⟨by decide, by decide⟩, .inl (by decide)⟩
  refine ⟨small, sound, ?_⟩
  apply not_reads_more small sound rfl (by decide) (.here (by decide))
    (fun none => absurd none (by decide)) (by decide) (by decide)
  have fetched : ((eightBytes 2).taken 2).fetch 2 = ((((eightBytes 2).taken 2).fetch 2).1, true) := rfl
  exact ⟨_, .more (by decide) fetched (.here (by decide))⟩

end Source

end Mpt
