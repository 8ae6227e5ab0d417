import Mpt.Convert.Decode

/-! # Decoding as a function on lists

`scan` is the block loop of the decoder without storage: it returns the decoded
bytes and what it leaves unread, for a given amount of free space.  `walk` is the
same without a limit, and `need` the free space with which both agree.  Frames
are the encoded messages; `walk` decodes each of them.
-/

namespace Mpt.Cobs

/-- The outcome of a scan: decoded bytes, unread bytes, and the place in the block
    where it stopped. -/
structure Scan where
  out : List Byte
  rest : List Byte
  code : Nat
  pos : Nat
  stop : Stop
  deriving Repr, DecidableEq

/-- Put decoded bytes before the outcome. -/
def Scan.after (out : List Byte) (r : Scan) : Scan := { r with out := out ++ r.out }

/-- The zeros that are missing in a block when `next` follows it. -/
def zerosLeft (v : Variant) (code pos : Nat) (next : Byte) : Nat :=
  lenData v code + lenZero v code next.toNat - pos

/-- The block loop with `gap` bytes of free space. -/
def scan (v : Variant) (code pos gap : Nat) : (src : List Byte) → Scan
  | [] => ⟨[], [], code, pos, if code = 0 then .done else .more⟩
  | b :: src =>
      if code = 0 then
        ⟨[], b :: src, code, pos, .done⟩
      else if pos < lenData v code then
        if b = 0 then
          ⟨[], b :: src, code, pos, .missingData⟩
        else if gap = 0 then
          ⟨[], b :: src, code, pos, .more⟩
        else
          (scan v code (pos + 1) gap src).after [b]
      else if gap < zerosLeft v code pos b then
        ⟨List.replicate gap 0, b :: src, code, pos + gap, .missingBuffer⟩
      else
        (scan v b.toNat 0 (gap - zerosLeft v code pos b + 1) src).after
          (List.replicate (zerosLeft v code pos b) 0)

/-- The block loop with all the space it needs. -/
def walk (v : Variant) (code pos : Nat) : (src : List Byte) → Scan
  | [] => ⟨[], [], code, pos, if code = 0 then .done else .more⟩
  | b :: src =>
      if code = 0 then
        ⟨[], b :: src, code, pos, .done⟩
      else if pos < lenData v code then
        if b = 0 then
          ⟨[], b :: src, code, pos, .missingData⟩
        else
          (walk v code (pos + 1) src).after [b]
      else
        (walk v b.toNat 0 src).after (List.replicate (zerosLeft v code pos b) 0)

/-- The free space that a scan needs at its start. -/
def need (v : Variant) (code pos : Nat) : (src : List Byte) → Nat
  | [] => 0
  | b :: src =>
      if code = 0 then
        0
      else if pos < lenData v code then
        if b = 0 then 0 else max 1 (need v code (pos + 1) src)
      else
        max (zerosLeft v code pos b) (need v b.toNat 0 src + zerosLeft v code pos b - 1)

variable {v : Variant}

@[simp] theorem after_stop (out : List Byte) (r : Scan) : (r.after out).stop = r.stop := rfl
@[simp] theorem after_rest (out : List Byte) (r : Scan) : (r.after out).rest = r.rest := rfl
@[simp] theorem after_code (out : List Byte) (r : Scan) : (r.after out).code = r.code := rfl
@[simp] theorem after_pos (out : List Byte) (r : Scan) : (r.after out).pos = r.pos := rfl
@[simp] theorem after_out (out : List Byte) (r : Scan) : (r.after out).out = out ++ r.out := rfl
@[simp] theorem after_nil (r : Scan) : r.after [] = r := rfl

theorem after_after (out out' : List Byte) (r : Scan) :
    (r.after out').after out = r.after (out ++ out') := by
  simp [Scan.after]

/-- With enough space the limit is not felt. -/
theorem scan_eq_walk (code pos gap : Nat) (src : List Byte) (enough : need v code pos src ≤ gap) :
    scan v code pos gap src = walk v code pos src := by
  induction src generalizing code pos gap with
  | nil => rfl
  | cons b src ih =>
      unfold need at enough
      unfold scan walk
      split
      · rfl
      · rename_i codeNe
        rw [if_neg codeNe] at enough
        split
        · rename_i inData
          rw [if_pos inData] at enough
          split
          · rfl
          · rename_i data
            rw [if_neg data] at enough
            rw [if_neg (by omega), ih _ _ _ (by omega)]
        · rename_i atEnd
          rw [if_neg atEnd] at enough
          rw [if_neg (by omega), ih _ _ _ (by omega)]

theorem walk_stop (code pos : Nat) (src : List Byte) :
    (walk v code pos src).stop ≠ .missingBuffer := by
  induction src generalizing code pos with
  | nil =>
      unfold walk
      by_cases zero : code = 0 <;> simp [zero]
  | cons b src ih =>
      unfold walk
      split
      · simp
      · split
        · split
          · simp
          · exact ih code (pos + 1)
        · exact ih b.toNat 0

/-- A scan that can go on: what it did not decode is decoded next, together with
    whatever is appended. -/
theorem walk_open (code pos gap : Nat) (src future : List Byte)
    (isOpen : (scan v code pos gap src).stop = .more ∨
      (scan v code pos gap src).stop = .missingBuffer) :
    walk v code pos (src ++ future) =
      (walk v (scan v code pos gap src).code (scan v code pos gap src).pos
        ((scan v code pos gap src).rest ++ future)).after (scan v code pos gap src).out := by
  induction src generalizing code pos gap with
  | nil => rfl
  | cons b src ih =>
      unfold scan at isOpen ⊢
      split at isOpen
      · rcases isOpen with h | h <;> cases h
      · rename_i codeNe
        rw [if_neg codeNe]
        split at isOpen
        · rename_i inData
          rw [if_pos inData]
          split at isOpen
          · rcases isOpen with h | h <;> cases h
          · rename_i data
            rw [if_neg data]
            split at isOpen
            · rename_i full
              rw [if_pos full]
              rfl
            · rename_i room
              rw [if_neg room]
              simp only [after_code, after_pos, after_rest, after_out, after_stop] at isOpen ⊢
              rw [List.cons_append, walk, if_neg codeNe, if_pos inData, if_neg data,
                ih _ _ _ isOpen, after_after]
        · rename_i atEnd
          rw [if_neg atEnd]
          split at isOpen
          · rename_i short
            rw [if_pos short, List.cons_append, walk, if_neg codeNe, if_neg atEnd]
            simp only [walk, codeNe, if_false]
            rw [if_neg (by omega), after_after, List.replicate_append_replicate]
            congr 2
            unfold zerosLeft at short ⊢
            omega
          · rename_i enough
            rw [if_neg enough]
            simp only [after_code, after_pos, after_rest, after_out, after_stop] at isOpen ⊢
            rw [List.cons_append, walk, if_neg codeNe, if_neg atEnd, ih _ _ _ isOpen, after_after]

/-- A scan that has reached the end of a frame is not changed by what follows. -/
theorem walk_closed (code pos gap : Nat) (src future : List Byte)
    (isClosed : (scan v code pos gap src).stop = .done ∨
      (scan v code pos gap src).stop = .missingData) :
    walk v code pos (src ++ future) =
      { scan v code pos gap src with rest := (scan v code pos gap src).rest ++ future } := by
  induction src generalizing code pos gap with
  | nil =>
      unfold scan at isClosed ⊢
      have zero : code = 0 := by
        by_contra ne
        simp [ne] at isClosed
      subst zero
      cases future <;> rfl
  | cons b src ih =>
      unfold scan at isClosed ⊢
      rw [List.cons_append, walk]
      split at isClosed
      · rename_i zero
        rw [if_pos zero, if_pos zero]
        rfl
      · rename_i codeNe
        rw [if_neg codeNe, if_neg codeNe]
        split at isClosed
        · rename_i inData
          rw [if_pos inData, if_pos inData]
          split at isClosed
          · rename_i zero
            rw [if_pos zero, if_pos zero]
            rfl
          · rename_i data
            rw [if_neg data, if_neg data]
            split at isClosed
            · rcases isClosed with h | h <;> cases h
            · rename_i room
              rw [if_neg room, ih _ _ _ isClosed]
              rfl
        · rename_i atEnd
          rw [if_neg atEnd, if_neg atEnd]
          split at isClosed
          · rcases isClosed with h | h <;> cases h
          · rename_i enough
            rw [if_neg enough, ih _ _ _ isClosed]
            rfl

/-- A scan that stops with all it was given has used up the input or the space. -/
theorem scan_more (code pos gap : Nat) (src : List Byte)
    (more : (scan v code pos gap src).stop = .more) (enough : need v code pos src ≤ gap) :
    (scan v code pos gap src).rest = [] := by
  induction src generalizing code pos gap with
  | nil => rfl
  | cons b src ih =>
      unfold need at enough
      unfold scan at more ⊢
      split at more
      · cases more
      · rename_i codeNe
        rw [if_neg codeNe] at enough ⊢
        split at more
        · rename_i inData
          rw [if_pos inData] at enough ⊢
          split at more
          · cases more
          · rename_i data
            rw [if_neg data] at enough ⊢
            rw [if_neg (by omega)] at more ⊢
            exact ih _ _ _ more (by omega)
        · rename_i atEnd
          rw [if_neg atEnd] at enough ⊢
          rw [if_neg (by omega)] at more ⊢
          exact ih _ _ _ more (by omega)

/-- A scan that starts with free space stops only at the end of its input or with
    decoded bytes. -/
theorem scan_advance (code pos gap : Nat) (src : List Byte) (some : 0 < gap) :
    ((scan v code pos gap src).stop = .more → (scan v code pos gap src).rest = []) ∧
      ((scan v code pos gap src).stop = .missingBuffer → (scan v code pos gap src).out ≠ []) := by
  induction src generalizing code pos gap with
  | nil =>
      unfold scan
      by_cases zero : code = 0 <;> simp [zero]
  | cons b src ih =>
      unfold scan
      split
      · simp
      · split
        · split
          · simp
          · rw [if_neg (by omega)]
            exact ⟨(ih code (pos + 1) gap some).1, fun _ => by simp⟩
        · split
          · refine ⟨nofun, fun _ => ?_⟩
            rw [ne_eq, List.replicate_eq_nil_iff]
            omega
          · have next := ih b.toNat 0 (gap - zerosLeft v code pos b + 1) (Nat.succ_pos _)
            exact ⟨next.1, fun stop => by simp [next.2 stop]⟩

/-- What a scan leaves is the end of what it was given. -/
theorem scan_suffix (code pos gap : Nat) (src : List Byte) :
    ∃ front, src = front ++ (scan v code pos gap src).rest := by
  induction src generalizing code pos gap with
  | nil => exact ⟨[], rfl⟩
  | cons b src ih =>
      unfold scan
      split
      · exact ⟨[], rfl⟩
      · split
        · split
          · exact ⟨[], rfl⟩
          · split
            · exact ⟨[], rfl⟩
            · obtain ⟨front, eq⟩ := ih code (pos + 1) gap
              exact ⟨b :: front, congrArg _ eq⟩
        · split
          · exact ⟨[], rfl⟩
          · obtain ⟨front, eq⟩ := ih b.toNat 0 (gap - zerosLeft v code pos b + 1)
            exact ⟨b :: front, congrArg _ eq⟩

/-- A scan that can go on stands in a block. -/
theorem scan_open_code (code pos gap : Nat) (src : List Byte)
    (isOpen : (scan v code pos gap src).stop = .more ∨
      (scan v code pos gap src).stop = .missingBuffer) :
    (scan v code pos gap src).code ≠ 0 := by
  induction src generalizing code pos gap with
  | nil =>
      unfold scan at isOpen ⊢
      rintro rfl
      rcases isOpen with h | h <;> cases h
  | cons b src ih =>
      unfold scan at isOpen ⊢
      split at isOpen
      · rcases isOpen with h | h <;> cases h
      · rename_i codeNe
        rw [if_neg codeNe]
        split at isOpen
        · rename_i inData
          rw [if_pos inData]
          split at isOpen
          · rcases isOpen with h | h <;> cases h
          · rename_i data
            rw [if_neg data]
            split at isOpen
            · rename_i full
              rw [if_pos full]
              exact codeNe
            · rename_i room
              rw [if_neg room]
              exact ih _ _ _ isOpen
        · rename_i atEnd
          rw [if_neg atEnd]
          split at isOpen
          · rename_i short
            rw [if_pos short]
            exact codeNe
          · rename_i enough
            rw [if_neg enough]
            exact ih _ _ _ isOpen

/-- An encoded message: finished blocks, the data of the last one, and the byte
    that stands in the place of its code when the tail is inlined. -/
structure Frame where
  blocks : List Block
  last : List Byte
  tail : Option Byte

namespace Frame

/-- The encoded bytes, without the delimiter. -/
def body (v : Variant) (f : Frame) : List Byte :=
  encoded v f.blocks ++ (f.tail.getD (UInt8.ofNat (f.last.length + 1))) :: f.last

def bytes (v : Variant) (f : Frame) : List Byte := f.body v ++ [0]

def message (f : Frame) : List Byte := decoded f.blocks ++ f.last ++ f.tail.toList

/-- A frame that the decoder of the codec accepts. -/
structure Ok (c : Codec) (f : Frame) : Prop where
  blocks : ∀ b ∈ f.blocks, b.Ok c.variant
  nonzero : (0 : Byte) ∉ f.last
  size : match f.tail with
    | none => f.last.length + 1 ≤ c.variant.maxlen
    | some e => c.tail = true ∧ f.last.length + 1 < e.toNat ∧ e.toNat ≤ c.variant.maxlen

end Frame

theorem walk_data {code pos : Nat} {d : List Byte} (rest : List Byte) (nonzero : (0 : Byte) ∉ d)
    (fits : pos + d.length ≤ lenData v code) (codeNe : code ≠ 0) :
    walk v code pos (d ++ rest) = (walk v code (pos + d.length) rest).after d := by
  induction d generalizing pos with
  | nil => rfl
  | cons b d ih =>
      simp only [List.mem_cons, not_or] at nonzero
      simp only [List.length_cons] at fits
      rw [List.cons_append, walk, if_neg codeNe, if_pos (by omega),
        if_neg (fun h => nonzero.1 h.symm), ih nonzero.2 (by omega), after_after]
      simp [Nat.add_assoc, Nat.add_comm 1]

theorem toNat_code {b : Block} (ok : b.Ok v) : (UInt8.ofNat (b.code v)).toNat = b.code v := by
  have := ok.code_lt
  simp only [UInt8.toNat_ofNat']
  omega

theorem lenData_code {b : Block} (ok : b.Ok v) : lenData v (b.code v) = b.data.length := by
  obtain ⟨_, size⟩ := ok
  unfold Block.code lenData
  cases e : b.ending with
  | zero =>
      simp only [e] at size
      simp only
      rw [if_pos (by omega)]
      omega
  | full =>
      simp only [e] at size
      simp only
      rw [if_pos (by omega)]
      omega
  | pair =>
      simp only [e] at size
      simp only
      rw [if_neg (by omega)]
      omega

/-- The zeros that a code implies when another block follows. -/
theorem payload_eq {b : Block} (ok : b.Ok v) {next : Byte} (more : next ≠ 0) :
    b.payload = b.data ++ List.replicate (zerosLeft v (b.code v) b.data.length next) 0 := by
  have data := lenData_code ok
  have positive : next.toNat ≠ 0 := by
    intro zero
    exact more (UInt8.toNat_inj.mp zero)
  obtain ⟨_, size⟩ := ok
  unfold zerosLeft lenZero
  rw [data]
  unfold Block.payload Block.code
  cases e : b.ending with
  | zero =>
      simp only [e] at size
      simp only
      rw [if_neg (by omega), if_pos ⟨by omega, positive⟩]
      simp
  | full =>
      simp only [e] at size
      simp only
      rw [if_neg (by omega), if_neg (by omega)]
      simp
  | pair =>
      simp only [e] at size
      simp only
      rw [if_pos (by omega)]
      simp [List.replicate]

theorem walk_block {b : Block} (ok : b.Ok v) {next : Byte} (more : next ≠ 0) (rest : List Byte) :
    walk v (b.code v) 0 (b.data ++ next :: rest) =
      (walk v next.toNat 0 rest).after b.payload := by
  have codeNe : b.code v ≠ 0 := Nat.ne_of_gt ok.code_pos
  have data := lenData_code ok
  rw [walk_data _ ok.nonzero (by omega) codeNe, Nat.zero_add, walk, if_neg codeNe,
    if_neg (by omega), after_after, payload_eq ok more]

/-- How a codec recognises the end of a message: the bytes of the message and
    what is left behind the delimiter. -/
def Scan.complete (c : Codec) (r : Scan) : Option (List Byte × List Byte) :=
  match r.stop with
  | .done => some (r.out, r.rest)
  | .missingData => if c.tail then some (r.out ++ [.ofNat r.code], r.rest.tail) else none
  | _ => none

theorem complete_after (c : Codec) (out : List Byte) (r : Scan) :
    (r.after out).complete c = (r.complete c).map fun p => (out ++ p.1, p.2) := by
  unfold Scan.complete
  cases e : r.stop with
  | more => simp [e]
  | done => simp [e]
  | missingBuffer => simp [e]
  | missingData =>
      simp only [after_stop, e]
      split <;> simp

/-- Reaching the end of a message from inside a block takes a byte. -/
theorem complete_rest_lt {c : Codec} {code pos : Nat} {src out rest : List Byte}
    (codeNe : code ≠ 0) (ends : (walk v code pos src).complete c = some (out, rest)) :
    rest.length < src.length := by
  induction src generalizing code pos out with
  | nil => simp [walk, codeNe, Scan.complete] at ends
  | cons b src ih =>
      unfold walk at ends
      rw [if_neg codeNe] at ends
      split at ends
      · split at ends
        · rename_i zero
          simp only [Scan.complete] at ends
          split at ends
          · obtain ⟨_, rfl⟩ := Prod.mk.inj (Option.some.inj ends)
            simp
          · cases ends
        · rw [complete_after, Option.map_eq_some_iff] at ends
          obtain ⟨r, later, eq⟩ := ends
          obtain ⟨_, rfl⟩ := Prod.mk.inj eq
          have := ih codeNe later
          simp only [List.length_cons]
          omega
      · rw [complete_after, Option.map_eq_some_iff] at ends
        obtain ⟨r, later, eq⟩ := ends
        obtain ⟨_, rfl⟩ := Prod.mk.inj eq
        by_cases delimiter : b.toNat = 0
        · rw [delimiter] at later
          cases src with
          | nil =>
              simp [walk, Scan.complete] at later
              simp [← later]
          | cons b' src =>
              simp [walk, Scan.complete] at later
              simp [← later]
        · have := ih delimiter later
          simp only [List.length_cons]
          omega

/-- The first byte of a frame is a code, not a delimiter. -/
theorem Frame.Ok.body_cons {c : Codec} {f : Frame} (ok : f.Ok c) :
    ∃ b l, f.body c.variant = b :: l ∧ b ≠ 0 := by
  obtain ⟨blocks, last, tail⟩ := f
  unfold Frame.body
  cases blocks with
  | nil =>
      refine ⟨_, _, rfl, fun zero => ?_⟩
      have size := ok.size
      have low := c.variant.maxlen_le
      have value := congrArg UInt8.toNat zero
      cases tail with
      | none =>
          simp at size value
          omega
      | some e =>
          simp at size value
          omega
  | cons b bs =>
      refine ⟨_, _, rfl, fun zero => ?_⟩
      have okb := ok.blocks b (by simp)
      have positive := okb.code_pos
      have value := congrArg UInt8.toNat zero
      rw [toNat_code okb] at value
      simp at value
      omega

/-- The walk decodes a frame. -/
theorem walk_frame {c : Codec} {f : Frame} (ok : f.Ok c) (future : List Byte) :
    ∃ b l, f.bytes c.variant = b :: l ∧ b ≠ 0 ∧
      (walk c.variant b.toNat 0 (l ++ future)).complete c = some (f.message, future) := by
  obtain ⟨blocks, last, tail⟩ := f
  induction blocks with
  | nil =>
      obtain ⟨_, _, eq, nonzero⟩ := ok.body_cons
      obtain ⟨rfl, _⟩ := List.cons.inj eq
      have bytes : (⟨[], last, tail⟩ : Frame).bytes c.variant =
          tail.getD (.ofNat (last.length + 1)) :: (last ++ [0]) := rfl
      refine ⟨_, _, bytes, nonzero, ?_⟩
      have size := ok.size
      have plain : (0 : Byte) ∉ last := ok.nonzero
      have low := c.variant.maxlen_le
      rw [List.append_assoc, List.singleton_append]
      cases tail with
      | none =>
          simp only at size
          have code : (UInt8.ofNat (last.length + 1)).toNat = last.length + 1 := by
            simp only [UInt8.toNat_ofNat']
            omega
          have data : lenData c.variant (last.length + 1) = last.length := by
            unfold lenData
            rw [if_pos size]
            omega
          have zeros : zerosLeft c.variant (last.length + 1) last.length 0 = 0 := by
            unfold zerosLeft lenZero
            rw [data, if_neg (by omega), if_neg (by simp)]
            omega
          rw [Option.getD_none, code, walk_data _ plain (by omega) (by omega), Nat.zero_add,
            walk, if_neg (by omega), if_neg (by omega), zeros]
          cases future <;> simp [walk, Scan.complete, Frame.message]
      | some e =>
          obtain ⟨isTail, short, fits⟩ := size
          have short : last.length + 1 < e.toNat := short
          have data : lenData c.variant e.toNat = e.toNat - 1 := by
            unfold lenData
            rw [if_pos fits]
          rw [Option.getD_some, walk_data _ plain (by omega) (by omega), Nat.zero_add,
            walk, if_neg (by omega), if_pos (by omega), if_pos rfl]
          simp [Scan.complete, Scan.after, isTail, Frame.message]
  | cons b bs ih =>
      have okb := ok.blocks b (by simp)
      have okf : (⟨bs, last, tail⟩ : Frame).Ok c :=
        ⟨fun b' mem => ok.blocks b' (by simp [mem]), ok.nonzero, ok.size⟩
      obtain ⟨next, l, eq, nonzero, decodes⟩ := ih okf
      obtain ⟨_, _, eq', nonzero'⟩ := ok.body_cons
      obtain ⟨rfl, _⟩ := List.cons.inj eq'
      have bytes : (⟨b :: bs, last, tail⟩ : Frame).bytes c.variant =
          .ofNat (b.code c.variant) :: (b.data ++ next :: l) := by
        rw [← eq]
        simp [Frame.bytes, Frame.body, Block.bytes]
      refine ⟨_, _, bytes, nonzero', ?_⟩
      rw [toNat_code okb, List.append_assoc, List.cons_append, walk_block okb nonzero,
        complete_after, decodes]
      simp [Frame.message]

section Regular

theorem zerosLeft_regular {code pos : Nat} (low : code < 0x100)
    (atEnd : ¬ pos < lenData .regular code) (b : Byte) :
    zerosLeft .regular code pos b ≤ 1 ∧ (b = 0 → zerosLeft .regular code pos b = 0) := by
  have le : code ≤ Variant.regular.maxlen := Nat.le_of_lt_succ low
  unfold zerosLeft lenZero
  rw [if_neg (by omega)]
  constructor
  · split <;> omega
  · rintro rfl
    rw [if_neg (by simp)]
    omega

/-- Regular COBS needs one byte of free space at most. -/
theorem need_regular (code pos : Nat) (src : List Byte) (low : code < 0x100) :
    need .regular code pos src ≤ 1 := by
  induction src generalizing code pos with
  | nil => exact Nat.zero_le _
  | cons b src ih =>
      unfold need
      split
      · omega
      · split
        · split
          · omega
          · have := ih code (pos + 1) low
            omega
        · rename_i atEnd
          have := (zerosLeft_regular low atEnd b).1
          have := ih b.toNat 0 b.toNat_lt
          omega

/-- None is needed in front of a delimiter. -/
theorem need_delimiter (code pos : Nat) (src : List Byte) (low : code < 0x100) :
    need .regular code pos (0 :: src) = 0 := by
  unfold need
  split
  · rfl
  · split
    · simp
    · rename_i atEnd
      have none := (zerosLeft_regular low atEnd 0).2 rfl
      have := need_regular (0 : Byte).toNat 0 src (by decide)
      omega

/-- A delimiter ends the scan. -/
theorem scan_delimiter (code pos gap : Nat) (src : List Byte) (low : code < 0x100) :
    (scan .regular code pos gap (0 :: src)).stop ≠ .more := by
  unfold scan
  split
  · simp
  · split
    · simp
    · rename_i atEnd
      have none := (zerosLeft_regular low atEnd 0).2 rfl
      rw [if_neg (by omega)]
      cases src <;> simp [scan]

/-- A scan of regular COBS that starts with free space keeps some. -/
theorem scan_keeps_gap (code pos gap : Nat) (src : List Byte) (low : code < 0x100)
    (some : 0 < gap) (more : (scan .regular code pos gap src).stop = .more) :
    (scan .regular code pos gap src).out.length + (scan .regular code pos gap src).rest.length <
      gap + src.length := by
  induction src generalizing code pos gap with
  | nil => simpa [scan] using some
  | cons b src ih =>
      unfold scan at more ⊢
      split at more
      · cases more
      · rename_i codeNe
        rw [if_neg codeNe]
        split at more
        · rename_i inData
          rw [if_pos inData]
          split at more
          · cases more
          · rename_i data
            rw [if_neg data]
            rw [if_neg (by omega)] at more ⊢
            have := ih code (pos + 1) gap low some more
            simp only [after_out, after_rest, List.length_append, List.length_cons,
              List.length_nil]
            omega
        · rename_i atEnd
          rw [if_neg atEnd]
          split at more
          · cases more
          · rename_i enough
            rw [if_neg enough]
            have := ih b.toNat 0 (gap - zerosLeft .regular code pos b + 1) b.toNat_lt
              (Nat.succ_pos _) more
            simp only [after_out, after_rest, List.length_append, List.length_replicate,
              List.length_cons]
            omega

end Regular

end Mpt.Cobs
