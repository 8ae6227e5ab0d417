import Mpt.Queue.Push
import Mpt.Queue.Align
import Mpt.Convert.Window
import Mpt.Run

/-! # The encoder in a part of the storage

A window is a range of the storage that holds the content from some position on
without a break.  A call of the encoder there adds to the content what it adds
anywhere else.
-/

namespace Mpt

open Cobs

namespace EncodeQueue

/-- The content is finished bytes and an open block. -/
structure Coded (v : Variant) (qu : EncodeQueue) (fin : List Byte) (o : Option (List Byte)) :
    Prop where
  valid : qu.data.Valid
  base : qu.data.base ≠ 0
  done : qu.state.done = fin.length
  scratch : qu.state.scratch = (progress o).length
  content : qu.data.content = fin ++ progress o
  short : Short v (o.getD [])

/-- Two windows of the same storage differ in what comes before them. -/
def shifted (qu : EncodeQueue) (k : Nat) : EncodeQueue :=
  ⟨qu.data, { qu.state with done := qu.state.done + k }⟩

/-- The used range as it is set at the end. -/
def settled (qu : EncodeQueue) : EncodeQueue :=
  ⟨{ qu.data with len := qu.state.done + qu.state.scratch }, qu.state⟩

/-- The first bytes are the same, however long the content is. -/
theorem take_content (q : Queue) {n k : Nat} (le : k ≤ n) (le' : k ≤ q.len) :
    ({ q with len := n } : Queue).content.take k = q.content.take k := by
  apply List.ext_getElem
  · simp
    omega
  · intro i _ _
    rw [List.getElem_take, List.getElem_take, Queue.getElem_content, Queue.getElem_content]

/-- The `len` bytes at `s` hold the content from the position `k` on. -/
structure Window (q : Queue) (k s len : Nat) : Prop where
  inside : k + len ≤ q.max
  store : s + len ≤ q.max
  maps : ∀ i, i < len → (q.off + (k + i)) % q.max = s + i

namespace Coded

variable {c : Codec} {v : Variant} {qu : EncodeQueue} {fin src : List Byte}
  {o : Option (List Byte)} {k s len : Nat}

theorem len_eq (h : Coded v qu fin o) :
    qu.data.len = qu.state.done + qu.state.scratch := by
  rw [← Queue.length_content, h.content, List.length_append, h.done, h.scratch]

theorem within (h : Coded v qu fin o) : qu.state.done + qu.state.scratch ≤ qu.data.max :=
  h.len_eq ▸ h.valid.len_le

theorem scratch_lt (h : Coded v qu fin o) : qu.state.scratch < 256 := by
  have size := h.short.size
  have high := v.maxlen_le
  rw [h.scratch]
  cases o with
  | none => simp [progress]
  | some o =>
      simp only [progress, length_opened, Option.getD_some] at *
      omega

theorem settled_eq (h : Coded v qu fin o) : qu.settled = qu := by
  unfold settled
  rw [← h.len_eq]

end Coded

namespace Window

variable {q : Queue} {k s len : Nat}

/-- The bytes of the content that lie in a window. -/
theorem read_eq (w : Window q k s len) {n : Nat} (fits : n ≤ len) (used : k + n ≤ q.len) :
    q.mem.read (q.base + s) n = (q.content.drop k).take n := by
  apply List.ext_getElem
  · simp
    omega
  · intro i low _
    rw [Mem.getElem_read, List.getElem_take, List.getElem_drop, Queue.getElem_content,
      w.maps i (by simp at low; omega), Nat.add_assoc]

/-- Content before a window is not in its range. -/
theorem apart (w : Window q k s len) (valid : q.off ≤ q.max) {i : Nat} (before : i < k) :
    (q.off + i) % q.max < s ∨ s + len ≤ (q.off + i) % q.max := by
  have inside := w.inside
  by_contra other
  have hit := w.maps ((q.off + i) % q.max - s) (by omega)
  have same := Queue.wrap_inj valid (i := k + ((q.off + i) % q.max - s)) (j := i) (by omega) (by omega)
    (by omega)
  omega

/-- New bytes in a window. -/
theorem content_eq (w : Window q k s len) (valid : q.off ≤ q.max) {m : Mem Byte} {l : List Byte}
    (before : k ≤ q.len) (fits : l.length ≤ len) (new : m.read (q.base + s) l.length = l)
    (same : ∀ a, a < q.base + s ∨ q.base + s + len ≤ a → m a = q.mem a) :
    ({ q with mem := m, len := k + l.length } : Queue).content = q.content.take k ++ l := by
  apply List.ext_getElem
  · simp
    omega
  · intro i low high
    rw [Queue.length_content] at low
    rw [Queue.getElem_content]
    simp only at low ⊢
    by_cases old : i < k
    · rw [List.getElem_append_left (by simp; omega), List.getElem_take, Queue.getElem_content]
      have := w.apart valid old
      exact same _ (by omega)
    · obtain ⟨j, rfl⟩ := Nat.exists_eq_add_of_le (show k ≤ i by omega)
      have left : (q.content.take k).length = k := by simp; omega
      rw [List.getElem_append_right (by omega), w.maps j (by omega)]
      have inside : j < (m.read (q.base + s) l.length).length := by simp; omega
      have cell : m (q.base + s + j) = (m.read (q.base + s) l.length)[j] := by
        rw [Mem.getElem_read]
      rw [← Nat.add_assoc, cell]
      simp only [new, left, Nat.add_sub_cancel_left]

end Window

namespace Coded

variable {c : Codec} {qu : EncodeQueue} {fin src : List Byte} {o : Option (List Byte)}
  {k s len : Nat}

/-- The encoder finds its finished bytes and its open block in a window. -/
theorem holds (h : Coded c.variant qu fin o) (w : Window qu.data k s len)
    (before : k ≤ qu.state.done) (fits : qu.state.done + qu.state.scratch ≤ k + len) :
    Holds c.variant { qu.state with done := qu.state.done - k } qu.data.mem (qu.data.base + s)
      (fin.drop k) o where
  done := by rw [List.length_drop, h.done]
  scratch := h.scratch
  mem := by
    have done := h.done
    have scratch := h.scratch
    have len_eq := h.len_eq
    rw [w.read_eq (by simp only; omega) (by simp only; omega), h.content,
      List.drop_append_of_le_length (by omega)]
    apply List.take_of_length_le
    rw [List.length_append, List.length_drop]
    simp only
    omega
  short := h.short

/-- A call in a window that has the room to store something, or has none. -/
theorem window_next (h : Coded c.variant qu fin o) (w : Window qu.data k s len)
    (before : k ≤ qu.state.done) (fits : qu.state.done + qu.state.scratch ≤ k + len)
    (regular : Regular c (qu.state.done - k) (k + len - qu.state.done) o src) :
    ∃ qu' add o' ret,
      qu.encodeIn c.encoder (qu.state.done - k) ⟨qu.data.base + s, len⟩ (source src) = (qu', ret) ∧
      Next c (k + len - qu.state.done) o src add o' ret ∧
      Coded c.variant (qu'.shifted k).settled (fin ++ add) o' ∧
      qu'.state.done + k + qu'.state.scratch ≤ k + len ∧
      qu'.data = { qu.data with mem := qu'.data.mem } ∧
      ∀ e, ret = .error e → qu'.shifted k = qu := by
  have target : qu.data.base + s ≠ 0 := by
    have := h.base
    omega
  have room : k + len - qu.state.done = len - (qu.state.done - k) := by omega
  rw [room] at regular ⊢
  obtain ⟨add, o', info', m', ret, call, next, holds, size, frame, failed⟩ :=
    encoder_next c (h.holds w before fits) target (by simp only; omega) regular
  refine ⟨⟨{ qu.data with mem := m' }, info'⟩, add, o', ret, ?_, next, ?_, ?_, rfl, ?_⟩
  · simp only [encodeIn, call]
  · have done := holds.done
    have scratch := holds.scratch
    have base := h.base
    have old := h.done
    have inside := w.inside
    have long : (fin.drop k ++ add ++ progress o').length = info'.done + info'.scratch := by
      rw [List.length_append, ← done, ← scratch]
    have range : info'.done + k + info'.scratch =
        k + (fin.drop k ++ add ++ progress o').length := by omega
    refine ⟨⟨h.valid.off_le, ?_⟩, h.base, ?_, scratch, ?_, holds.short⟩
    · simp only [settled, shifted]
      omega
    · simp only [settled, shifted, done, List.length_append, List.length_drop]
      omega
    · have read : m'.read (qu.data.base + s) (fin.drop k ++ add ++ progress o').length =
          fin.drop k ++ add ++ progress o' := by
        rw [long]
        exact holds.mem
      have len_eq := h.len_eq
      have whole := w.content_eq h.valid.off_le (by omega) (by omega) read
        fun a other => frame a (by simp only; omega)
      simp only [settled, shifted, range]
      rw [whole, h.content, List.take_append_of_le_length (by omega), ← List.append_assoc,
        ← List.append_assoc, List.take_append_drop]
  · simp only
    omega
  · intro e eq
    obtain ⟨rfl, rfl⟩ := failed e eq
    simp only [shifted, Nat.sub_add_cancel before]

/-- Without room in a range, nothing changes, whatever the range is. -/
theorem window_full (h : Coded c.variant qu fin o) (k len base : Nat) (target : base ≠ 0)
    (before : k ≤ qu.state.done) (fits : qu.state.done + qu.state.scratch ≤ k + len)
    (full : Full c (k + len - qu.state.done) o src) :
    qu.encodeIn c.encoder (qu.state.done - k) ⟨base, len⟩ (source src) =
      (⟨qu.data, { qu.state with done := qu.state.done - k }⟩, .error .missingBuffer) := by
  have room : k + len - qu.state.done = len - (qu.state.done - k) := by omega
  rw [room] at full
  have scratch : ({ qu.state with done := qu.state.done - k } : EncodeState).scratch =
      (progress o).length := h.scratch
  have call := encoder_full c qu.data.mem h.short scratch target
    (show qu.state.done - k + qu.state.scratch ≤ len by omega) full
  unfold encodeIn
  simp only [call]

end Coded

end EncodeQueue

end Mpt
