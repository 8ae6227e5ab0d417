import Mpt.Convert.Scan

/-! # What one decoder call does

The decoder writes into the space it has freed.  It never touches a byte that it
has yet to read, so a call is a scan of the unread bytes and a store of the
result behind the bytes decoded before.
-/

namespace Mpt.Cobs

variable {v : Variant} {m : Mem Byte} {A : List Nat}

theorem putZeros_eq (m : Mem Byte) (n : Nat) (dst : List Nat) :
    putZeros m n dst = m.scatter dst (List.replicate n 0) := by
  unfold putZeros
  induction dst generalizing m n with
  | nil => cases n <;> rfl
  | cons a dst ih =>
      cases n with
      | zero => rfl
      | succ n => exact ih (m.set a 0) n

theorem set_head (m : Mem Byte) {w : Nat} (inside : w < A.length) (x : Byte) :
    m.set ((A.drop w).headD 0) x = m.scatter (A.drop w) [x] := by
  rw [List.drop_eq_getElem_cons inside, Mem.scatter, Mem.scatter_nil]
  rfl

/-- The block loop on storage is a scan, with the result stored in the space in
    front of the unread bytes. -/
theorem decodeLoop_scan (nodup : A.Nodup) {w r proc : Nat} (gap : w + proc = r) (le : r ≤ A.length)
    (mlen code pos : Nat) {R : Scan} (scanned : scan v code pos proc ((A.drop r).map m) = R) :
    decodeLoop v false m (A.drop w) mlen proc code pos (A.drop r) =
        ⟨m.scatter (A.drop w) R.out, mlen + R.out.length,
          A.length - R.rest.length - (w + R.out.length), R.code, R.pos, R.stop⟩ ∧
      w + R.out.length + R.rest.length ≤ A.length := by
  generalize unread : A.drop r = src at scanned ⊢
  induction src generalizing m w r proc mlen code pos R with
  | nil =>
      have size := congrArg List.length unread
      simp only [List.length_drop, List.length_nil] at size
      subst scanned
      unfold decodeLoop
      by_cases zero : code = 0
      · simp [scan, zero]
        omega
      · simp [scan, zero]
        omega
  | cons s src ih =>
      have size := congrArg List.length unread
      simp only [List.length_drop, List.length_cons] at size
      have behind : A.drop (r + 1) = src := by
        rw [← List.drop_drop, unread]
        rfl
      have kept : ∀ l : List Byte, w + l.length ≤ r + 1 →
          src.map (m.scatter (A.drop w) l) = src.map m := by
        intro l short
        rw [← behind]
        exact Mem.map_scatter_behind m nodup l short
      subst scanned
      simp only [decodeLoop, List.map_cons, scan]
      by_cases zero : code = 0
      · simp [zero]
        omega
      rw [if_neg zero, if_neg zero]
      by_cases inData : pos < lenData v code
      · rw [if_pos inData, if_pos inData]
        by_cases inline : m s = 0
        · simp [inline]
          omega
        rw [if_neg inline, if_neg inline]
        by_cases full : proc = 0
        · simp [full]
          omega
        rw [if_neg full, if_neg full, set_head m (by omega), List.tail_drop]
        obtain ⟨loop, fits⟩ := ih (show w + 1 + proc = r + 1 by omega) (by omega) (mlen + 1) code
          (pos + 1) behind (by rw [kept [m s] (by simp; omega)])
        rw [loop]
        simp only [after_out, after_rest, after_code, after_pos, after_stop, List.length_append,
          List.length_singleton]
        refine ⟨?_, by omega⟩
        rw [Mem.scatter_append, List.drop_drop, List.length_singleton]
        congr 1
        · omega
        · omega
      · rw [if_neg inData, if_neg inData]
        simp only [Bool.false_eq_true, if_false]
        have zeros : lenData v code + lenZero v code (m s).toNat - pos =
            zerosLeft v code pos (m s) := rfl
        rw [zeros]
        by_cases short : proc < zerosLeft v code pos (m s)
        · rw [if_pos short, if_pos short, putZeros_eq]
          simp
          omega
        · rw [if_neg short, if_neg short, putZeros_eq]
          have room : w + zerosLeft v code pos (m s) +
              (proc - zerosLeft v code pos (m s) + 1) = r + 1 := by omega
          have same := kept (List.replicate (zerosLeft v code pos (m s)) 0)
            (by rw [List.length_replicate]; omega)
          obtain ⟨loop, fits⟩ := ih room (by omega) (mlen + zerosLeft v code pos (m s))
            (m s).toNat 0 behind (by rw [same])
          rw [List.drop_drop, loop]
          simp only [after_out, after_rest, after_code, after_pos, after_stop, List.length_append,
            List.length_replicate]
          refine ⟨?_, by omega⟩
          rw [Mem.scatter_append, List.length_replicate, List.drop_drop]
          congr 1
          · omega
          · omega

/-- The state of a decoder between two calls, on a source with the addresses `A`:
    decoded bytes, free space and unread bytes follow each other. -/
structure Ready (dec : DecodeState) (A : List Nat) : Prop where
  order : dec.pos + dec.len ≤ dec.curr
  inside : dec.curr ≤ A.length
  msg : dec.msg = none ∨ dec.msg = some dec.len

/-- The number of bytes a call skips to align the start of a message. -/
def shift (dec : DecodeState) (source : List Iovec) (sourcelen : Nat) : Nat :=
  if dec.len - dec.msg.getD 0 = 0 then
    let tmp := ((sourceParts source sourcelen).read (dec.pos + dec.len)).1
    alignPost tmp.base tmp.used (dec.curr - (dec.pos + dec.len))
  else
    0

/-- The free space a call starts with. -/
def gapAt (dec : DecodeState) (source : List Iovec) (sourcelen : Nat) : Nat :=
  dec.curr - (dec.pos + dec.len) - shift dec source sourcelen

/-- Where the decoded bytes of the current message start, and how many there are. -/
def target (dec : DecodeState) (source : List Iovec) (sourcelen : Nat) : Nat × Nat :=
  if dec.len - dec.msg.getD 0 = 0 then
    (dec.pos + dec.len + shift dec source sourcelen, 0)
  else
    (dec.pos, dec.len)

theorem alignPost_le (addr used proc : Nat) : alignPost addr used proc ≤ proc := by
  unfold alignPost
  split
  · rename_i align found
    have := List.find?_some found
    simp only [decide_eq_true_eq] at this
    exact this.2
  · exact Nat.zero_le _

theorem shift_le (dec : DecodeState) (source : List Iovec) (sourcelen : Nat) :
    shift dec source sourcelen ≤ dec.curr - (dec.pos + dec.len) := by
  unfold shift
  split
  · exact alignPost_le _ _ _
  · exact Nat.zero_le _

theorem target_gap {dec : DecodeState} (ready : Ready dec A) (source : List Iovec)
    (sourcelen : Nat) :
    (target dec source sourcelen).1 + (target dec source sourcelen).2 +
      gapAt dec source sourcelen = dec.curr := by
  have := shift_le dec source sourcelen
  have := ready.order
  unfold target gapAt
  split
  · simp only
    omega
  · simp only
    unfold shift
    rw [if_neg (by assumption)]
    omega

/-- The result of a scan as the decoder reports it. -/
def report (m : Mem Byte) (A : List Nat) (at_ : Nat × Nat) (R : Scan) :
    DecodeState × Mem Byte × Except Error Nat :=
  let mem := m.scatter (A.drop (at_.1 + at_.2)) R.out
  let curr := A.length - R.rest.length
  let len := at_.2 + R.out.length
  match R.stop with
  | .done => (⟨0, curr, at_.1, len, some len⟩, mem, .ok 1)
  | .more => (⟨cobsState R.code R.pos, curr, at_.1, len, none⟩, mem, .ok 0)
  | .missingData =>
      (⟨cobsState R.code R.pos, curr, at_.1, len, none⟩, mem, .error .missingData)
  | .missingBuffer =>
      (⟨cobsState R.code R.pos, curr, at_.1, len, none⟩, mem, .error .missingBuffer)

/-- The scan that a call makes of the unread bytes; none when it does not get
    to a code. -/
def scanAt (v : Variant) (ctx gap : Nat) (unread : List Byte) : Option Scan :=
  if ctx % 0x100 = 0 then
    match unread with
    | [] => none
    | b :: rest => if b = 0 then none else some (scan v b.toNat (ctx % 0x10000 / 0x100) (gap + 1) rest)
  else
    some (scan v (ctx % 0x100) (ctx % 0x10000 / 0x100) gap unread)

/-- The free space that a call needs for the bytes there are. -/
def needAt (v : Variant) (ctx : Nat) (unread : List Byte) : Nat :=
  if ctx % 0x100 = 0 then
    match unread with
    | [] => 0
    | b :: rest => need v b.toNat (ctx % 0x10000 / 0x100) rest - 1
  else
    need v (ctx % 0x100) (ctx % 0x10000 / 0x100) unread

/-- With enough space a call stops inside a message only at the end of its bytes. -/
theorem scanAt_enough {ctx gap : Nat} {unread : List Byte} {R : Scan}
    (scanned : scanAt v ctx gap unread = some R) (enough : needAt v ctx unread ≤ gap) :
    R.stop ≠ .missingBuffer ∧ (R.stop = .more → R.rest = []) := by
  have fromScan : ∀ code pos gap src, need v code pos src ≤ gap →
      (scan v code pos gap src).stop ≠ .missingBuffer ∧
        ((scan v code pos gap src).stop = .more → (scan v code pos gap src).rest = []) := by
    intro code pos gap src enough
    refine ⟨?_, fun more => scan_more code pos gap src more enough⟩
    rw [scan_eq_walk code pos gap src enough]
    exact walk_stop code pos src
  unfold scanAt at scanned
  unfold needAt at enough
  split at scanned
  · rename_i closed
    rw [if_pos closed] at enough
    cases unread with
    | nil => cases scanned
    | cons b rest =>
        simp only at scanned enough
        split at scanned
        · cases scanned
        · obtain rfl := Option.some.inj scanned
          exact fromScan _ _ _ _ (by omega)
  · rename_i inBlock
    rw [if_neg inBlock] at enough
    obtain rfl := Option.some.inj scanned
    exact fromScan _ _ _ _ enough

theorem decodeBlocks_report (nodup : A.Nodup) {dec : DecodeState} {dst src : Message}
    {mlen proc w r : Nat} (front : dst.bytes = A.drop w) (unread : src.bytes = A.drop r)
    (start : dec.pos + mlen = w) (gap : w + proc = r) (le : r ≤ A.length)
    (fresh : dec.msg = none) (code pos : Nat) {R : Scan}
    (scanned : scan v code pos proc ((A.drop r).map m) = R) :
    decodeBlocks v dec m false dst src dec.pos mlen proc code pos =
      report m A (dec.pos, mlen) R := by
  obtain ⟨loop, fits⟩ := decodeLoop_scan nodup gap le mlen code pos scanned
  have curr : dec.pos + (mlen + R.out.length) +
      (A.length - R.rest.length - (w + R.out.length)) = A.length - R.rest.length := by omega
  cases stop : R.stop <;>
    simp only [decodeBlocks, front, unread, loop, report, start, fresh, curr, stop]

theorem decodeFrom_report (nodup : A.Nodup) {d : DecodeState} {tmp : Message}
    {mlen proc : Nat} (front : tmp.bytes = A.drop (d.pos + mlen))
    (gap : d.pos + mlen + proc ≤ A.length) (fresh : d.msg = none) {R : Scan}
    (scanned : scanAt v d.ctx proc ((A.drop (d.pos + mlen + proc)).map m) = some R) :
    decodeFrom v d m false tmp d.pos mlen proc = report m A (d.pos, mlen) R := by
  have consumed := (tmp.read_spec proc).1
  have left := (tmp.read_spec proc).2.1
  have enough : (tmp.read proc).2.length = proc := by
    rw [consumed, front, List.length_take, List.length_drop]
    omega
  rw [front, List.drop_drop] at left
  unfold decodeFrom
  generalize tmp.read proc = first at *
  obtain ⟨msg, free⟩ := first
  simp only at enough left
  simp only [enough, Nat.lt_irrefl, if_false]
  unfold scanAt at scanned
  by_cases closed : d.ctx % 0x100 = 0
  · rw [if_pos closed] at scanned ⊢
    have one := (msg.read_spec 1).1
    have rest := (msg.read_spec 1).2.1
    generalize msg.read 1 = next at *
    obtain ⟨msg', head⟩ := next
    rw [left] at one rest
    simp only at one rest
    cases unread : A.drop (d.pos + mlen + proc) with
    | nil => simp [unread] at scanned
    | cons s src =>
        have size := congrArg List.length unread
        simp only [List.length_drop, List.length_cons] at size
        rw [unread] at one rest scanned
        simp only [List.take_succ_cons, List.take_zero] at one
        simp only [List.map_cons] at scanned
        subst one
        simp only
        by_cases zero : m s = 0
        · simp [zero] at scanned
        · rw [if_neg zero] at scanned ⊢
          have behind : A.drop (d.pos + mlen + proc + 1) = src := by
            rw [← List.drop_drop, unread]
            rfl
          refine decodeBlocks_report (r := d.pos + mlen + proc + 1) nodup front ?_ rfl
            (by omega) (by omega) fresh _ _ ?_
          · rw [rest, behind]
            rfl
          · rw [behind]
            exact Option.some.inj scanned
  · rw [if_neg closed] at scanned ⊢
    exact decodeBlocks_report nodup front left rfl rfl gap fresh _ _ (Option.some.inj scanned)

/-- A call that finds no unread byte behind a delimiter. -/
theorem decodeFrom_empty {d : DecodeState} {tmp : Message} {mlen proc : Nat}
    (front : tmp.bytes = A.drop (d.pos + mlen)) (gap : d.pos + mlen + proc = A.length)
    (closed : d.ctx % 0x100 = 0) :
    decodeFrom v d m false tmp d.pos mlen proc = (d, m, .ok 0) := by
  have consumed := (tmp.read_spec proc).1
  have left := (tmp.read_spec proc).2.1
  have enough : (tmp.read proc).2.length = proc := by
    rw [consumed, front, List.length_take, List.length_drop]
    omega
  rw [front, List.drop_drop, gap, List.drop_length] at left
  unfold decodeFrom
  generalize tmp.read proc = first at *
  obtain ⟨msg, free⟩ := first
  simp only at enough left
  simp only [enough, Nat.lt_irrefl, if_false]
  rw [if_pos closed]
  have one := (msg.read_spec 1).1
  rw [left, List.take_nil] at one
  rw [one]

/-- The state with which a call goes on: the previous message is dropped. -/
def opened? (dec : DecodeState) (source : List Iovec) (sourcelen : Nat) : DecodeState :=
  ⟨dec.ctx, dec.curr, (target dec source sourcelen).1, (target dec source sourcelen).2, none⟩

/-- A call on a source, from the settled start of the decoded bytes. -/
theorem decode_eq {dec : DecodeState} (ready : Ready dec A)
    {source : List Iovec} {sourcelen : Nat} (all : sourcelen ≠ 0)
    (parts : (sourceParts source sourcelen).bytes = A) :
    ∃ tmp : Message, tmp.bytes = A.drop ((target dec source sourcelen).1 +
        (target dec source sourcelen).2) ∧
      decode v dec m (some source) sourcelen =
        decodeFrom v (opened? dec source sourcelen) m false tmp (target dec source sourcelen).1
          (target dec source sourcelen).2 (gapAt dec source sourcelen) := by
  have order := ready.order
  have inside := ready.inside
  have consumed := ((sourceParts source sourcelen).read_spec (dec.pos + dec.len)).1
  have left := ((sourceParts source sourcelen).read_spec (dec.pos + dec.len)).2.1
  have enough : ((sourceParts source sourcelen).read (dec.pos + dec.len)).2.length =
      dec.pos + dec.len := by
    rw [consumed, parts, List.length_take]
    omega
  rw [parts] at left
  rcases read : (sourceParts source sourcelen).read (dec.pos + dec.len) with ⟨tmp, used⟩
  rw [read] at enough left
  have bounds : ¬ (dec.curr < dec.pos + dec.len ∨ used.length < dec.pos + dec.len) := by
    simp only at enough
    omega
  simp only [decode, opened?, target, gapAt, shift, read, bounds, all, and_false, if_false,
    decide_false]
  by_cases fresh : dec.len - dec.msg.getD 0 = 0
  · simp only [fresh, if_true, Nat.add_zero]
    have skip := (tmp.read_spec (alignPost tmp.base tmp.used
      (dec.curr - (dec.pos + dec.len)))).2.1
    rw [left, List.drop_drop] at skip
    exact ⟨_, skip, rfl⟩
  · have none : dec.msg = none := by
      rcases ready.msg with h | h
      · exact h
      · rw [h] at fresh
        simp at fresh
    simp only [none, Option.getD_none, Nat.sub_zero] at fresh
    simp only [none, Option.getD_none, Nat.sub_zero, fresh, if_false, Nat.add_zero]
    exact ⟨tmp, left, rfl⟩

/-- The call of a regular decoder: a scan of the unread bytes, with its result
    stored behind the bytes decoded before. -/
theorem decode_report (nodup : A.Nodup) {dec : DecodeState} (ready : Ready dec A)
    {source : List Iovec} {sourcelen : Nat} (all : sourcelen ≠ 0)
    (parts : (sourceParts source sourcelen).bytes = A) {R : Scan}
    (scanned : scanAt v dec.ctx (gapAt dec source sourcelen) ((A.drop dec.curr).map m) = some R) :
    decode v dec m (some source) sourcelen = report m A (target dec source sourcelen) R := by
  obtain ⟨tmp, front, call⟩ := decode_eq (v := v) (m := m) ready all parts
  have gap := target_gap ready source sourcelen
  have inside := ready.inside
  rw [call]
  exact decodeFrom_report (d := opened? dec source sourcelen) nodup front (by
    simp only [opened?]; omega) rfl (by simp only [opened?, gap]; exact scanned)

theorem decode_empty {dec : DecodeState} (ready : Ready dec A)
    {source : List Iovec} {sourcelen : Nat} (all : sourcelen ≠ 0)
    (parts : (sourceParts source sourcelen).bytes = A) (closed : dec.ctx % 0x100 = 0)
    (empty : dec.curr = A.length) :
    decode v dec m (some source) sourcelen = (opened? dec source sourcelen, m, .ok 0) := by
  obtain ⟨tmp, front, call⟩ := decode_eq (v := v) (m := m) ready all parts
  have gap := target_gap ready source sourcelen
  rw [call]
  exact decodeFrom_empty (d := opened? dec source sourcelen) front (by
    simp only [opened?]; omega) closed

theorem lenData_le (v : Variant) {code : Nat} (next : Nat) (low : code < 0x100) :
    lenData v code + lenZero v code next < 0x100 := by
  have short := v.short_lt
  unfold lenData lenZero
  split
  · split
    · omega
    · split <;> omega
  · split
    · omega
    · split <;> omega

theorem scan_bounds (code pos gap : Nat) (src : List Byte) (low : code < 0x100)
    (high : pos < 0x100) :
    (scan v code pos gap src).code < 0x100 ∧ (scan v code pos gap src).pos < 0x100 := by
  induction src generalizing code pos gap with
  | nil => exact ⟨low, high⟩
  | cons b src ih =>
      have size := lenData_le v b.toNat low
      unfold scan
      split
      · exact ⟨low, high⟩
      · split
        · split
          · exact ⟨low, high⟩
          · split
            · exact ⟨low, high⟩
            · exact ih _ _ _ low (by omega)
        · split
          · rename_i short
            unfold zerosLeft at short
            exact ⟨low, by simp only; omega⟩
          · exact ih _ _ _ b.toNat_lt (by omega)

theorem scan_size (code pos gap : Nat) (src : List Byte) :
    (scan v code pos gap src).out.length + (scan v code pos gap src).rest.length ≤
      gap + src.length := by
  induction src generalizing code pos gap with
  | nil => simp [scan]
  | cons b src ih =>
      unfold scan
      split
      · simp
      · split
        · split
          · simp
          · split
            · simp
            · have := ih code (pos + 1) gap
              simp
              omega
        · split
          · simp
          · have := ih b.toNat 0 (gap - zerosLeft v code pos b + 1)
            simp
            omega

/-- A scan that meets a zero inside a block leaves it unread. -/
theorem scan_missing (code pos gap : Nat) (src : List Byte)
    (stop : (scan v code pos gap src).stop = .missingData) :
    ∃ rest, (scan v code pos gap src).rest = 0 :: rest ∧ (scan v code pos gap src).code ≠ 0 := by
  induction src generalizing code pos gap with
  | nil =>
      unfold scan at stop
      simp only at stop
      split at stop <;> cases stop
  | cons b src ih =>
      unfold scan at stop ⊢
      split at stop
      · cases stop
      · rename_i codeNe
        rw [if_neg codeNe]
        split at stop
        · rename_i inData
          rw [if_pos inData]
          split at stop
          · rename_i zero
            rw [if_pos zero]
            exact ⟨src, by rw [zero], codeNe⟩
          · rename_i data
            rw [if_neg data]
            split at stop
            · cases stop
            · rename_i room
              rw [if_neg room]
              exact ih _ _ _ stop
        · rename_i atEnd
          rw [if_neg atEnd]
          split at stop
          · cases stop
          · rename_i enough
            rw [if_neg enough]
            exact ih _ _ _ stop

/-- A call scans from the saved place, or from the code it reads. -/
theorem scanAt_cases {ctx gap : Nat} {unread : List Byte} {R : Scan}
    (scanned : scanAt v ctx gap unread = some R) :
    ∃ code pos gap' src, R = scan v code pos gap' src ∧ code < 0x100 ∧ pos < 0x100 ∧
      gap' + src.length = gap + unread.length := by
  unfold scanAt at scanned
  split at scanned
  · cases unread with
    | nil => cases scanned
    | cons b rest =>
        simp only at scanned
        split at scanned
        · cases scanned
        · obtain rfl := Option.some.inj scanned
          exact ⟨_, _, _, _, rfl, b.toNat_lt, by omega, by simp; omega⟩
  · obtain rfl := Option.some.inj scanned
    exact ⟨_, _, _, _, rfl, by omega, by omega, rfl⟩

/-- The result of a scan as the decoder of a codec reports it: it may recognise the
    end of the message in an inlined tail. -/
def answer (c : Codec) (m : Mem Byte) (A : List Nat) (at_ : Nat × Nat) (R : Scan) :
    DecodeState × Mem Byte × Except Error Nat :=
  match R.complete c with
  | some (out, rest) =>
      (⟨0, A.length - rest.length, at_.1, at_.2 + out.length, some (at_.2 + out.length)⟩,
        m.scatter (A.drop (at_.1 + at_.2)) out, .ok 1)
  | none => report m A at_ R

theorem answer_regular {c : Codec} (regular : c.tail = false) (at_ : Nat × Nat) (R : Scan) :
    answer c m A at_ R = report m A at_ R := by
  unfold answer report Scan.complete
  cases R.stop with
  | more => rfl
  | done => rfl
  | missingData => simp [regular]
  | missingBuffer => rfl

/-- The code and the position fit in the saved state. -/
structure Saved (ctx code pos : Nat) : Prop where
  code : ctx % 0x100 = code
  pos : ctx % 0x10000 / 0x100 = pos

theorem saved_state {code pos : Nat} (low : code < 0x100) (high : pos < 0x100) :
    Saved (cobsState code pos) code pos := by
  constructor
  · unfold cobsState
    omega
  · unfold cobsState
    omega

/-- The call of any decoder of the family. -/
theorem decoder_answer (c : Codec) (nodup : A.Nodup) {dec : DecodeState} (ready : Ready dec A)
    {source : List Iovec} {sourcelen : Nat} (all : sourcelen ≠ 0)
    (parts : (sourceParts source sourcelen).bytes = A) {R : Scan}
    (scanned : scanAt c.variant dec.ctx (gapAt dec source sourcelen)
      ((A.drop dec.curr).map m) = some R) :
    c.decoder dec m (some source) sourcelen = answer c m A (target dec source sourcelen) R := by
  have plain := decode_report nodup ready all parts scanned
  obtain ⟨code, pos, gap', src, eq, codeLt, posLt, total⟩ := scanAt_cases scanned
  obtain ⟨low, high⟩ : R.code < 0x100 ∧ R.pos < 0x100 := by
    rw [eq]
    exact scan_bounds _ _ _ _ codeLt posLt
  cases isTail : c.tail with
  | false => simpa [Codec.decoder, isTail, answer_regular isTail] using plain
  | true =>
      simp only [Codec.decoder, isTail, if_true, decodeR, plain]
      unfold answer report Scan.complete
      cases stop : R.stop with
      | more => rfl
      | done => rfl
      | missingBuffer => rfl
      | missingData =>
          have fits := scan_size (v := c.variant) code pos gap' src
          obtain ⟨rest, inline, codeNe⟩ := scan_missing _ _ _ _ (eq ▸ stop)
          rw [← eq] at inline codeNe fits
          rw [inline, List.length_cons] at fits
          rw [List.length_map, List.length_drop] at total
          have inside := ready.inside
          have gap := target_gap ready source sourcelen
          have saved := saved_state low high
          have ctx : cobsState R.code R.pos ≠ 0 := by
            unfold cobsState
            omega
          simp only [isTail, if_true, ctx, if_false, Option.getD_some]
          have parts' : (⟨0, 0, source.take sourcelen⟩ : Message).bytes = A := by
            rw [← parts, sourceParts, if_neg all]
          generalize target dec source sourcelen = at_ at *
          have left := ((⟨0, 0, source.take sourcelen⟩ : Message).read_spec
            (at_.1 + (at_.2 + R.out.length))).2
          generalize ((⟨0, 0, source.take sourcelen⟩ : Message).read
            (at_.1 + (at_.2 + R.out.length))).1 = tmp at left
          obtain ⟨left, settled⟩ := left
          rw [parts'] at left
          have place : at_.1 + (at_.2 + R.out.length) < A.length := by omega
          have used : tmp.used ≠ 0 := by
            intro none
            have size := congrArg List.length (settled none)
            rw [left, List.length_drop, List.length_nil] at size
            omega
          have head := tmp.base_mem used
          rw [left] at head
          have cell : ∀ (m' : Mem Byte) x, m'.set tmp.base x =
              m'.scatter (A.drop (at_.1 + (at_.2 + R.out.length))) [x] := by
            intro m' x
            have base : (A.drop (at_.1 + (at_.2 + R.out.length))).headD 0 = tmp.base := by
              rw [List.headD_eq_head?_getD, head]
              rfl
            rw [← base, set_head m' place]
          rw [if_neg used, saved.code, inline, cell, Mem.scatter_append, List.drop_drop,
            Nat.add_assoc at_.1]
          simp only [List.length_cons, List.tail_cons, List.length_append, List.length_nil,
            Nat.zero_add, ← Nat.add_assoc]
          congr 2
          omega

theorem decoder_empty (c : Codec) {dec : DecodeState} (ready : Ready dec A)
    {source : List Iovec} {sourcelen : Nat} (all : sourcelen ≠ 0)
    (parts : (sourceParts source sourcelen).bytes = A) (closed : dec.ctx % 0x100 = 0)
    (empty : dec.curr = A.length) :
    c.decoder dec m (some source) sourcelen = (opened? dec source sourcelen, m, .ok 0) := by
  have plain := decode_empty (v := c.variant) (m := m) ready all parts closed empty
  unfold Codec.decoder
  split
  · simp only [decodeR, plain]
  · exact plain

/-- The end of a message that a codec recognises in a scan. -/
theorem complete_parts {c : Codec} {ctx gap : Nat} {src : List Byte} {R : Scan}
    (scanned : scanAt v ctx gap src = some R) {out rest : List Byte}
    (complete : R.complete c = some (out, rest)) :
    out.length + rest.length ≤ R.out.length + R.rest.length ∧ ∃ front, R.rest = front ++ rest := by
  unfold Scan.complete at complete
  cases stop : R.stop with
  | more => simp [stop] at complete
  | missingBuffer => simp [stop] at complete
  | done =>
      simp only [stop] at complete
      obtain ⟨rfl, rfl⟩ := Prod.mk.inj (Option.some.inj complete)
      exact ⟨Nat.le_refl _, [], rfl⟩
  | missingData =>
      obtain ⟨code, pos, gap', src', eq, _⟩ := scanAt_cases scanned
      obtain ⟨left, inline, _⟩ := scan_missing _ _ _ _ (eq ▸ stop)
      rw [← eq] at inline
      simp only [stop] at complete
      split at complete
      · obtain ⟨rfl, rfl⟩ := Prod.mk.inj (Option.some.inj complete)
        rw [inline]
        exact ⟨by simp; omega, [0], rfl⟩
      · cases complete

end Mpt.Cobs
