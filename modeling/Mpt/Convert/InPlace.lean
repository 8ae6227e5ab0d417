import Mpt.Convert.DecodeSpec

/-! # The bytes a decoder writes

The decoder works in the storage of its source.  On any bytes whatsoever the place
for the next decoded byte stays behind the read position, so that no byte is lost
before it was read; the state left behind is consistent again, with one exception
at the start of a message.
-/

namespace Mpt.Cobs.InPlace

variable {v : Variant} {m : Mem Byte} {A : List Nat}

/-- The address of one of the bytes from `low` to before `high` of a source. -/
def Within (A : List Nat) (low high : Nat) (a : Nat) : Prop :=
  ∃ i, low ≤ i ∧ i < high ∧ A[i]? = some a

theorem Within.mono {low high low' high' a : Nat} (h : Within A low high a) (below : low' ≤ low)
    (above : high ≤ high') : Within A low' high' a := by
  obtain ⟨i, le, lt, at_⟩ := h
  exact ⟨i, Nat.le_trans below le, Nat.lt_of_lt_of_le lt above, at_⟩

theorem only_set_within (m : Mem Byte) {w stop : Nat} (inside : w < A.length) (before : w < stop)
    (x : Byte) : Mem.Only (Within A w stop) m (m.set ((A.drop w).headD 0) x) := by
  apply Mem.only_set
  refine ⟨w, Nat.le_refl _, before, ?_⟩
  rw [List.drop_eq_getElem_cons inside, List.headD_cons, List.getElem?_eq_getElem inside]

theorem only_putZeros (m : Mem Byte) (n w : Nat) :
    Mem.Only (Within A w (w + n)) m (putZeros m n (A.drop w)) := by
  rw [putZeros_eq]
  intro a outside
  apply Mem.scatter_outside
  intro inside
  obtain ⟨i, lt, eq⟩ := List.mem_iff_getElem.mp inside
  simp only [List.length_take, List.length_replicate, List.length_drop] at lt
  apply outside
  refine ⟨w + i, by omega, by omega, ?_⟩
  rw [List.getElem_take, List.getElem_drop] at eq
  rw [List.getElem?_eq_getElem (by omega), eq]

/-- What the block loop leaves when the target was at `w` and the unread bytes at `r`:
    it has stored `n` bytes and has come to `stop`, where the bytes stored and the free
    space end. -/
structure Moved (A : List Nat) (m : Mem Byte) (w r mlen : Nat) (R : DecodeExit) (n stop : Nat) :
    Prop where
  count : R.mlen = mlen + n
  gap : w + n + R.proc = stop
  forward : r ≤ stop
  inside : stop ≤ A.length
  inline : R.stop = .missingData → stop < A.length
  mem : Mem.Only (Within A w (w + n)) m R.mem

theorem Moved.stay {w r mlen proc code pos : Nat} (gap : w + proc = r) (le : r ≤ A.length)
    {stop : Stop} (inline : stop = .missingData → r < A.length) :
    Moved A m w r mlen ⟨m, mlen, proc, code, pos, stop⟩ 0 r :=
  ⟨rfl, gap, Nat.le_refl _, le, inline, Mem.only_refl _ m⟩

theorem Moved.step {m' : Mem Byte} {w r mlen k n stop : Nat} {R : DecodeExit}
    (first : Mem.Only (Within A w (w + k)) m m')
    (h : Moved A m' (w + k) (r + 1) (mlen + k) R n stop) : Moved A m w r mlen R (k + n) stop where
  count := by
    rw [h.count]
    omega
  gap := by
    have := h.gap
    omega
  forward := Nat.le_of_lt h.forward
  inside := h.inside
  inline := h.inline
  mem := by
    apply Mem.Only.trans
    · exact first.mono fun a inside => inside.mono (Nat.le_refl _) (by omega)
    · exact h.mem.mono fun a inside => inside.mono (by omega) (by omega)

/-- Every round of the block loop reads at least as many bytes as it stores. -/
theorem decodeLoop_moved (one : Bool) {w r proc : Nat} (gap : w + proc = r) (le : r ≤ A.length)
    (mlen code pos : Nat) :
    ∃ n stop, Moved A m w r mlen
      (decodeLoop v one m (A.drop w) mlen proc code pos (A.drop r)) n stop := by
  generalize unread : A.drop r = src
  induction src generalizing m w r proc mlen code pos with
  | nil =>
      unfold decodeLoop
      by_cases zero : code = 0
      · rw [if_pos zero]
        exact ⟨0, r, .stay gap le fun missing => by cases missing⟩
      · rw [if_neg zero]
        exact ⟨0, r, .stay gap le fun missing => by cases missing⟩
  | cons s src ih =>
      have size := congrArg List.length unread
      simp only [List.length_drop, List.length_cons] at size
      have behind : A.drop (r + 1) = src := by
        rw [← List.drop_drop, unread]
        rfl
      unfold decodeLoop
      by_cases zero : code = 0
      · rw [if_pos zero]
        exact ⟨0, r, .stay gap le fun missing => by cases missing⟩
      rw [if_neg zero]
      by_cases inData : pos < lenData v code
      · rw [if_pos inData]
        by_cases inline : m s = 0
        · rw [if_pos inline]
          exact ⟨0, r, .stay gap le fun _ => by omega⟩
        rw [if_neg inline]
        by_cases full : proc = 0
        · rw [if_pos full]
          exact ⟨0, r, .stay gap le fun missing => by cases missing⟩
        rw [if_neg full, List.tail_drop]
        obtain ⟨n, stop, moved⟩ := ih (m := m.set ((A.drop w).headD 0) (m s))
          (show w + 1 + proc = r + 1 by omega) (by omega) (mlen + 1) code (pos + 1) behind
        exact ⟨1 + n, stop, moved.step (only_set_within m (by omega) (Nat.lt_succ_self _) _)⟩
      rw [if_neg inData]
      by_cases first : one = true
      · rw [if_pos first]
        exact ⟨0, r, .stay gap le fun missing => by cases missing⟩
      rw [if_neg first]
      simp only
      generalize lenData v code + lenZero v code (m s).toNat - pos = zeros
      by_cases short : proc < zeros
      · rw [if_pos short]
        exact ⟨proc, r, rfl, by simp only; omega, Nat.le_refl _, le, (fun missing => by cases missing),
          only_putZeros m proc w⟩
      · rw [if_neg short, List.drop_drop]
        obtain ⟨n, stop, moved⟩ := ih (m := putZeros m zeros (A.drop w))
          (show w + zeros + (proc - zeros + 1) = r + 1 by omega) (by omega) (mlen + zeros)
          (m s).toNat 0 behind
        exact ⟨zeros + n, stop, moved.step (only_putZeros m zeros w)⟩

/-- The result of a call from the settled start of the decoded bytes: `d` has its
    decoded bytes up to `w`. -/
structure Kept (A : List Nat) (m : Mem Byte) (w : Nat) (d : DecodeState)
    (r : DecodeState × Mem Byte × Except Error Nat) : Prop where
  low : w ≤ r.1.pos + r.1.len
  order : r.1.pos + r.1.len ≤ r.1.curr
  forward : d.curr ≤ r.1.curr
  inside : r.1.curr = d.curr ∨ r.1.curr ≤ A.length
  inline : r.2.2 = .error .missingData → r.1.curr < A.length
  mem : Mem.Only (Within A w (r.1.pos + r.1.len)) m r.2.1

theorem decodeBlocks_kept (one : Bool) {d : DecodeState} {dst src : Message} {mlen proc r : Nat}
    (front : dst.bytes = A.drop (d.pos + mlen)) (unread : src.bytes = A.drop r)
    (gap : d.pos + mlen + proc = r) (before : d.curr ≤ r) (le : r ≤ A.length) (code pos : Nat) :
    Kept A m (d.pos + mlen) d (decodeBlocks v d m one dst src d.pos mlen proc code pos) := by
  obtain ⟨n, stop, moved⟩ := decodeLoop_moved (v := v) (m := m) one gap le mlen code pos
  unfold decodeBlocks
  rw [front, unread]
  generalize decodeLoop v one m (A.drop (d.pos + mlen)) mlen proc code pos (A.drop r) = R at moved
  have count := moved.count
  have ends := moved.gap
  have forward := moved.forward
  have inside := moved.inside
  have inline := moved.inline
  have mem : Mem.Only (Within A (d.pos + mlen) (d.pos + R.mlen)) m R.mem :=
    moved.mem.mono fun a within => within.mono (Nat.le_refl _) (by omega)
  have order : d.pos + R.mlen ≤ d.pos + R.mlen + R.proc := Nat.le_add_right _ _
  have low : d.pos + mlen ≤ d.pos + R.mlen := by omega
  have ahead : d.curr ≤ d.pos + R.mlen + R.proc := by omega
  have fits : d.pos + R.mlen + R.proc ≤ A.length := by omega
  simp only
  cases e : R.stop with
  | more => exact ⟨low, order, ahead, .inr fits, nofun, mem⟩
  | done => exact ⟨low, order, ahead, .inr fits, nofun, mem⟩
  | missingData =>
      have last := inline e
      exact ⟨low, order, ahead, .inr fits, fun _ => by simp only; omega, mem⟩
  | missingBuffer => exact ⟨low, order, ahead, .inr fits, nofun, mem⟩

/-- The first unread byte is a zero where a code is expected. -/
def ZeroAhead (m : Mem Byte) (A : List Nat) (d : DecodeState) : Prop :=
  d.ctx % 0x100 = 0 ∧ ∃ a, A[d.curr]? = some a ∧ m a = 0

theorem decodeFrom_kept (one : Bool) {d : DecodeState} {tmp : Message} {proc : Nat}
    (front : tmp.bytes = A.drop (d.pos + d.len)) (curr : d.pos + d.len + proc = d.curr)
    (enough : d.pos + d.len ≤ A.length) :
    (ZeroAhead m A d ∧ decodeFrom v d m one tmp d.pos d.len proc =
        ({ d with curr := proc + 1 }, m, .error .badValue)) ∨
      (¬ ZeroAhead m A d ∧
        Kept A m (d.pos + d.len) d (decodeFrom v d m one tmp d.pos d.len proc)) := by
  have same : ∀ (ret : Except Error Nat), (ret = .error .missingData → d.curr < A.length) →
      Kept A m (d.pos + d.len) d (d, m, ret) := fun ret inline =>
    ⟨Nat.le_refl _, by simp only; omega, Nat.le_refl _, .inl rfl, inline, Mem.only_refl _ m⟩
  have consumed := (tmp.read_spec proc).1
  have left := (tmp.read_spec proc).2.1
  have size : (tmp.read proc).2.length = min proc (A.length - (d.pos + d.len)) := by
    rw [consumed, front, List.length_take, List.length_drop]
  rw [front, List.drop_drop, curr] at left
  unfold decodeFrom
  generalize tmp.read proc = first at *
  obtain ⟨msg, free⟩ := first
  simp only at size left
  simp only [size]
  by_cases short : min proc (A.length - (d.pos + d.len)) < proc
  · rw [if_pos short]
    refine .inr ⟨?_, same _ nofun⟩
    rintro ⟨_, a, at_, _⟩
    have := (List.getElem?_eq_some_iff.mp at_).1
    omega
  rw [if_neg short]
  by_cases closed : d.ctx % 0x100 = 0
  · rw [if_pos closed]
    have one' := (msg.read_spec 1).1
    have rest := (msg.read_spec 1).2.1
    generalize msg.read 1 = next at *
    obtain ⟨msg', head⟩ := next
    rw [left] at one' rest
    simp only at one' rest
    cases unread : A.drop d.curr with
    | nil =>
        rw [unread] at one'
        simp only [List.take_nil] at one'
        subst one'
        refine .inr ⟨?_, same _ nofun⟩
        rintro ⟨_, a, at_, _⟩
        have lt := (List.getElem?_eq_some_iff.mp at_).1
        have := List.drop_eq_nil_iff.mp unread
        omega
    | cons s src =>
        have long := congrArg List.length unread
        simp only [List.length_drop, List.length_cons] at long
        have here : A[d.curr]? = some s := by
          have := congrArg List.head? unread
          rwa [List.head?_drop] at this
        rw [unread] at one'
        simp only [List.take_succ_cons, List.take_zero] at one'
        subst one'
        simp only
        by_cases zero : m s = 0
        · rw [if_pos zero]
          exact .inl ⟨⟨closed, s, here, zero⟩, rfl⟩
        · rw [if_neg zero]
          refine .inr ⟨?_, ?_⟩
          · rintro ⟨_, a, at_, isZero⟩
            obtain rfl := Option.some.inj (here.symm.trans at_)
            exact zero isZero
          · rw [List.drop_drop] at rest
            exact decodeBlocks_kept one front rest (by omega) (by omega) (by omega) _ _
  · rw [if_neg closed]
    refine .inr ⟨fun ahead => closed ahead.1, ?_⟩
    exact decodeBlocks_kept one front left curr (Nat.le_refl _) (by omega) _ _

/-- The parts of a source that a call works on, as addresses. -/
def view (source : List Iovec) (sourcelen : Nat) : List Nat := (sourceParts source sourcelen).bytes

/-- A call for the first block only does nothing without a message in progress. -/
def Idle (dec : DecodeState) (sourcelen : Nat) : Prop :=
  sourcelen = 0 ∧ (dec.msg ≠ none ∨ dec.len = 0)

/-- A call before the tail extension: an answer without effect, or the blocks from the
    settled start of the decoded bytes. -/
theorem decode_starts {dec : DecodeState} (order : dec.pos + dec.len ≤ dec.curr)
    (msg : dec.msg = none ∨ dec.msg = some dec.len) (source : List Iovec) (sourcelen : Nat)
    (inside : sourcelen ≠ 0 → dec.curr ≤ (view source sourcelen).length) :
    (∃ e, decode v dec m (some source) sourcelen = (dec, m, .error e) ∧ e ≠ .missingData ∧
        (Idle dec sourcelen ∨ (view source sourcelen).length < dec.pos + dec.len)) ∨
      (¬ Idle dec sourcelen ∧
        ∃ tmp, tmp.bytes = (view source sourcelen).drop (dec.pos + dec.len +
          shift dec source sourcelen) ∧
        dec.pos + dec.len + shift dec source sourcelen ≤ (view source sourcelen).length ∧
        (opened? dec source sourcelen).pos + (opened? dec source sourcelen).len =
          dec.pos + dec.len + shift dec source sourcelen ∧
        decode v dec m (some source) sourcelen =
          decodeFrom v (opened? dec source sourcelen) m (decide (sourcelen = 0)) tmp
            (opened? dec source sourcelen).pos (opened? dec source sourcelen).len
            (gapAt dec source sourcelen)) := by
  have consumed := ((sourceParts source sourcelen).read_spec (dec.pos + dec.len)).1
  have left := ((sourceParts source sourcelen).read_spec (dec.pos + dec.len)).2.1
  have size : ((sourceParts source sourcelen).read (dec.pos + dec.len)).2.length =
      min (dec.pos + dec.len) (view source sourcelen).length := by
    rw [consumed, List.length_take]
    rfl
  have post := shift_le dec source sourcelen
  have fresh : dec.len - dec.msg.getD 0 = 0 ↔ dec.msg ≠ none ∨ dec.len = 0 := by
    rcases msg with none | done
    · simp [none]
    · simp [done]
  rcases read : (sourceParts source sourcelen).read (dec.pos + dec.len) with ⟨tmp, used⟩
  rw [read] at size left
  simp only at size left
  by_cases short : used.length < dec.pos + dec.len
  · refine .inl ⟨.badArgument, ?_, (fun missing => by cases missing), .inr (by omega)⟩
    simp only [decode, read, short, or_true, if_true]
  have bounds : ¬ (dec.curr < dec.pos + dec.len ∨ used.length < dec.pos + dec.len) := by omega
  by_cases first : sourcelen = 0
  · subst first
    by_cases idle : dec.msg ≠ none ∨ dec.len = 0
    · refine .inl ⟨.badOperation, ?_, (fun missing => by cases missing), .inl ⟨rfl, idle⟩⟩
      simp only [decode, read, bounds, if_false, decide_true, and_true]
      by_cases done : dec.msg ≠ none
      · rw [if_pos done]
      · rw [if_neg done, if_pos (fresh.mpr idle), if_pos trivial]
        obtain ⟨ctx, curr, pos, len, msg⟩ := dec
        simp only [ne_eq, not_not] at done idle
        obtain rfl := done
        simp only [not_true_eq_false, false_or] at idle
        subst idle
        rfl
    · have inBlock : ¬ dec.len - dec.msg.getD 0 = 0 := fun h => idle (fresh.mp h)
      simp only [ne_eq, not_or, not_not] at idle
      have none := idle.1
      refine .inr ⟨fun h => inBlock (fresh.mpr h.2), tmp, ?_⟩
      simp only [decode, opened?, target, gapAt, shift, read, bounds, inBlock, if_false,
        decide_true, and_true]
      simp only [none, ne_eq, not_true_eq_false, if_false, Option.getD_none, Nat.sub_zero,
        Nat.add_zero]
      exact ⟨left, by omega, trivial, trivial⟩
  · have inside := inside first
    by_cases idle : dec.len - dec.msg.getD 0 = 0
    · refine .inr ⟨fun h => first h.1, (tmp.read (shift dec source sourcelen)).1, ?_⟩
      have skip := (tmp.read_spec (shift dec source sourcelen)).2.1
      rw [left, List.drop_drop] at skip
      simp only [decode, opened?, target, gapAt, read, bounds, first, idle, if_true, if_false,
        and_false, decide_false, Nat.add_zero]
      refine ⟨skip, by omega, trivial, ?_⟩
      simp only [shift, idle, if_true, read]
    · have none : dec.msg = none := by
        by_contra done
        exact idle (fresh.mpr (.inl done))
      refine .inr ⟨fun h => first h.1, tmp, ?_⟩
      simp only [decode, opened?, target, gapAt, shift, read, bounds, first, idle, if_false,
        and_false, decide_false, Nat.add_zero]
      simp only [none, Option.getD_none, Nat.sub_zero] at idle ⊢
      exact ⟨left, by omega, trivial, rfl⟩

/-- What a call may do to the storage of a source with the addresses `A` and to a
    consistent state: only bytes from the end of the decoded ones up to the read
    position change, and the state stays consistent and does not go back. -/
structure Harmless (A : List Nat) (dec : DecodeState) (m : Mem Byte)
    (r : DecodeState × Mem Byte × Except Error Nat) : Prop where
  mem : Mem.Only (Within A (dec.pos + dec.len) r.1.curr) m r.2.1
  order : r.1.pos + r.1.len ≤ r.1.curr
  inside : r.1.curr ≤ A.length
  forward : dec.curr ≤ r.1.curr

/-- A zero where a message should start, in front of which bytes were decoded or
    skipped. -/
def Stray (dec : DecodeState) (m : Mem Byte) (source : List Iovec) (sourcelen : Nat) : Prop :=
  ¬ Idle dec sourcelen ∧ ZeroAhead m (view source sourcelen) dec ∧
    1 < dec.pos + dec.len + shift dec source sourcelen

/-- A call without the tail extension, in terms of what it works on. -/
theorem decode_kept {dec : DecodeState} (order : dec.pos + dec.len ≤ dec.curr)
    (msg : dec.msg = none ∨ dec.msg = some dec.len) (source : List Iovec) (sourcelen : Nat)
    (inside : sourcelen ≠ 0 → dec.curr ≤ (view source sourcelen).length) :
    (¬ Idle dec sourcelen ∧ ZeroAhead m (view source sourcelen) dec ∧
        decode v dec m (some source) sourcelen =
          ({ opened? dec source sourcelen with curr := gapAt dec source sourcelen + 1 }, m,
            .error .badValue)) ∨
      ((Idle dec sourcelen ∨ ¬ ZeroAhead m (view source sourcelen) dec) ∧
        Kept (view source sourcelen) m (dec.pos + dec.len) dec
          (decode v dec m (some source) sourcelen)) := by
  have post := shift_le dec source sourcelen
  rcases decode_starts (v := v) (m := m) order msg source sourcelen inside with
    ⟨e, call, inline, why⟩ | ⟨busy, tmp, front, enough, settled, call⟩
  · refine .inr ⟨?_, ?_⟩
    · rcases why with idle | short
      · exact .inl idle
      · refine .inr ?_
        rintro ⟨_, a, at_, _⟩
        have := (List.getElem?_eq_some_iff.mp at_).1
        omega
    · rw [call]
      exact ⟨Nat.le_refl _, order, Nat.le_refl _, .inl rfl,
        fun missing => absurd (Except.error.inj missing) inline, Mem.only_refl _ m⟩
  · have gap : (opened? dec source sourcelen).pos + (opened? dec source sourcelen).len +
        gapAt dec source sourcelen = (opened? dec source sourcelen).curr := by
      rw [settled]
      simp only [gapAt, opened?]
      omega
    have same : ∀ A, ZeroAhead m A (opened? dec source sourcelen) ↔ ZeroAhead m A dec :=
      fun _ => Iff.rfl
    rcases decodeFrom_kept (v := v) (m := m) (decide (sourcelen = 0))
        (by rw [settled]; exact front) gap (by rw [settled]; exact enough) with
      ⟨ahead, stray⟩ | ⟨clean, kept⟩
    · exact .inl ⟨busy, (same _).mp ahead, call.trans stray⟩
    · refine .inr ⟨.inr fun ahead => clean ((same _).mpr ahead), ?_⟩
      rw [call]
      rw [settled] at kept
      exact ⟨by have := kept.low; omega, kept.order, kept.forward, kept.inside, kept.inline,
        kept.mem.mono fun a within => within.mono (by omega) (Nat.le_refl _)⟩

/-- Where the tail extension stores its byte. -/
theorem tail_place {source : List Iovec} {sourcelen k : Nat}
    (room : ((⟨0, 0, ((some source).getD []).take sourcelen⟩ : Message).read k).1.used ≠ 0) :
    (view source sourcelen)[k]? =
      some ((⟨0, 0, ((some source).getD []).take sourcelen⟩ : Message).read k).1.base := by
  have left := ((⟨0, 0, ((some source).getD []).take sourcelen⟩ : Message).read_spec k).2.1
  generalize ((⟨0, 0, ((some source).getD []).take sourcelen⟩ : Message).read k).1 = tmp
    at left room
  have head := tmp.base_mem room
  rw [left, List.head?_drop] at head
  have all : sourcelen ≠ 0 := by
    rintro rfl
    simp [Message.bytes] at head
  have parts : (⟨0, 0, source.take sourcelen⟩ : Message).bytes = view source sourcelen := by
    rw [view, sourceParts, if_neg all]
  simpa only [Option.getD_some, parts] using head

/-- The tail extension adds one byte, in front of the delimiter it has read. -/
theorem decodeR_kept {dec : DecodeState} {source : List Iovec} {sourcelen : Nat}
    (kept : Kept (view source sourcelen) m (dec.pos + dec.len) dec
      (decode v dec m (some source) sourcelen)) :
    (decodeR v dec m (some source) sourcelen).1.pos +
        (decodeR v dec m (some source) sourcelen).1.len ≤
          (decodeR v dec m (some source) sourcelen).1.curr ∧
      dec.curr ≤ (decodeR v dec m (some source) sourcelen).1.curr ∧
      ((decodeR v dec m (some source) sourcelen).1.curr = dec.curr ∨
        (decodeR v dec m (some source) sourcelen).1.curr ≤ (view source sourcelen).length) ∧
      Mem.Only (Within (view source sourcelen) (dec.pos + dec.len)
        (decodeR v dec m (some source) sourcelen).1.curr) m
          (decodeR v dec m (some source) sourcelen).2.1 := by
  have low := kept.low
  have order := kept.order
  have forward := kept.forward
  have inline := kept.inline
  have mem : Mem.Only (Within (view source sourcelen) (dec.pos + dec.len)
      (decode v dec m (some source) sourcelen).1.curr) m
        (decode v dec m (some source) sourcelen).2.1 :=
    kept.mem.mono fun a within => within.mono (Nat.le_refl _) order
  unfold decodeR
  rcases call : decode v dec m (some source) sourcelen with ⟨d, m', ret⟩
  rw [call] at low order forward inline mem kept
  have plain := And.intro order (And.intro forward (And.intro kept.inside mem))
  cases ret with
  | ok n => exact plain
  | error e =>
      cases e with
      | missingData =>
          simp only
          by_cases none : d.ctx = 0
          · rw [if_pos none]
            exact plain
          rw [if_neg none]
          by_cases empty : ((⟨0, 0, ((some source).getD []).take sourcelen⟩ : Message).read
              (d.pos + d.len)).1.used = 0
          · rw [if_pos empty]
            exact plain
          rw [if_neg empty]
          have behind := inline rfl
          have head := tail_place empty
          simp only at low order forward behind mem ⊢
          refine ⟨by omega, by omega, .inr behind, ?_⟩
          apply Mem.Only.trans
          · exact mem.mono fun a within => within.mono (Nat.le_refl _) (Nat.le_succ _)
          · exact Mem.only_set _ ⟨d.pos + d.len, low, by omega, head⟩ _
      | _ => exact plain

/-- Any other answer than `MissingData` is one with the tail extension, too. -/
theorem decoder_other (c : Codec) {dec dec' : DecodeState} {m' : Mem Byte}
    {source : List Iovec} {sourcelen : Nat} {ret : Except Error Nat}
    (call : decode c.variant dec m (some source) sourcelen = (dec', m', ret))
    (other : ret ≠ .error .missingData) :
    c.decoder dec m (some source) sourcelen = (dec', m', ret) := by
  unfold Codec.decoder
  split
  · unfold decodeR
    rw [call]
    split
    · next missing =>
        cases missing
        exact absurd rfl other
    · rfl
  · exact call

/-- The addresses of all bytes of a source. -/
def total (source : List Iovec) : List Nat := source.flatMap fun v => addresses v.base v.len

theorem view_front (source : List Iovec) (sourcelen : Nat) :
    view source sourcelen <+: total source := by
  unfold view sourceParts Message.bytes total
  rw [addresses_zero, List.nil_append]
  refine ⟨(source.drop (if sourcelen = 0 then 1 else sourcelen)).flatMap
    fun v => addresses v.base v.len, ?_⟩
  rw [← List.flatMap_append, List.take_append_drop]

theorem view_all (source : List Iovec) : view source source.length = total source := by
  cases source with
  | nil => rfl
  | cons part source =>
      unfold view sourceParts Message.bytes total
      rw [if_neg (by simp), List.take_length]
      rfl

theorem Within.whole {source : List Iovec} {sourcelen low high a : Nat}
    (h : Within (view source sourcelen) low high a) : Within (total source) low high a := by
  obtain ⟨i, le, lt, at_⟩ := h
  obtain ⟨rest, eq⟩ := view_front source sourcelen
  refine ⟨i, le, lt, ?_⟩
  rw [← eq, List.getElem?_append_left (List.getElem?_eq_some_iff.mp at_).1]
  exact at_

/-- Every call of a decoder on any bytes works in place and leaves a consistent state,
    except where it finds a stray delimiter behind decoded or skipped bytes. -/
theorem decoders_in_place (c : Codec) (m : Mem Byte) (dec : DecodeState) (source : List Iovec)
    (sourcelen : Nat) (calls : sourcelen = 0 ∨ sourcelen = source.length)
    (order : dec.pos + dec.len ≤ dec.curr) (inside : dec.curr ≤ (total source).length)
    (msg : dec.msg = none ∨ dec.msg = some dec.len) :
    Harmless (total source) dec m (c.decoder dec m (some source) sourcelen) ↔
      ¬ Stray dec m source sourcelen := by
  have viewed := (view_front source sourcelen).length_le
  have all : sourcelen ≠ 0 → dec.curr ≤ (view source sourcelen).length := by
    intro some
    rw [calls.resolve_left some, view_all]
    exact inside
  have post := shift_le dec source sourcelen
  rcases decode_kept (v := c.variant) (m := m) order msg source sourcelen all with
    ⟨busy, ahead, call⟩ | ⟨clean, kept⟩
  · -- the answer at a stray delimiter
    have answer := decoder_other c call nofun
    obtain ⟨_, a, at_, _⟩ := id ahead
    have behind := (List.getElem?_eq_some_iff.mp at_).1
    have gap : gapAt dec source sourcelen =
        dec.curr - (dec.pos + dec.len + shift dec source sourcelen) := Nat.sub_sub _ _ _
    have start : (opened? dec source sourcelen).pos + (opened? dec source sourcelen).len =
        dec.pos + dec.len + shift dec source sourcelen := by
      have := target_gap (A := total source) ⟨order, inside, msg⟩ source sourcelen
      simp only [opened?]
      omega
    rw [answer]
    constructor
    · intro harmless stray
      have forward := harmless.forward
      have first := stray.2.2
      simp only at forward
      omega
    · intro clean
      have first : dec.pos + dec.len + shift dec source sourcelen ≤ 1 := by
        by_contra large
        exact clean ⟨busy, ahead, Nat.lt_of_not_le large⟩
      exact ⟨Mem.only_refl _ m, by simp only; omega, by simp only; omega, by simp only; omega⟩
  · have notStray : ¬ Stray dec m source sourcelen := by
      intro stray
      rcases clean with idle | clean
      · exact stray.1 idle
      · exact clean stray.2.1
    refine iff_of_true ?_ notStray
    unfold Codec.decoder
    split
    · obtain ⟨low, forward, fits, mem⟩ := decodeR_kept kept
      exact ⟨mem.mono fun a within => within.whole, low, by omega, forward⟩
    · have fits := kept.inside
      exact ⟨kept.mem.mono fun a within => (within.mono (Nat.le_refl _) kept.order).whole,
        kept.order, by omega, kept.forward⟩

/-- A frame with a byte and a second delimiter behind it. -/
def strayExample : Mem Byte := fun i => if i = 16 then 2 else if i = 17 then 7 else 0

/-- A decoder that gets a frame in two parts, both in the middle of it. -/
theorem decoders_in_place_parts :
    Harmless (total [⟨16, 2⟩, ⟨18, 2⟩]) .init strayExample
      (Codec.cobs.decoder .init strayExample (some [⟨16, 2⟩, ⟨18, 2⟩]) 2) := by
  apply (decoders_in_place .cobs strayExample .init [⟨16, 2⟩, ⟨18, 2⟩] 2 (.inr rfl) (by decide)
    (by decide) (.inl rfl)).mpr
  rintro ⟨_, _, large⟩
  exact absurd large (by decide)

/-- The decoder goes back behind the frame: the position it stores counts from the end
    of the previous message. -/
theorem stray_delimiter_goes_back :
    let r := Codec.cobs.decoder .init strayExample (some [⟨16, 4⟩]) 1
    let r' := Codec.cobs.decoder r.1 r.2.1 (some [⟨16, 4⟩]) 1
    r.1 = ⟨0, 3, 0, 1, some 1⟩ ∧ r'.2.2 = .error .badValue ∧ r'.1.curr = 2 ∧
      ¬ Harmless (total [⟨16, 4⟩]) r.1 r.2.1 r' := by
  intro r r'
  have first : r.1 = ⟨0, 3, 0, 1, some 1⟩ := by decide
  have second : r'.1.curr = 2 := by decide
  refine ⟨first, by decide, second, ?_⟩
  intro harmless
  have forward := harmless.forward
  rw [first, second] at forward
  exact absurd forward (by decide)

end Mpt.Cobs.InPlace
