import Mpt.Queue.Align
import Mpt.Run

/-! # The ring queue is a bounded FIFO

The abstract component is a list of at most `cap` bytes.  `Queue.machine` runs
the library calls on a queue; every call that succeeds does to the content what
`Op.effect` does to the list, and every call that fails leaves the queue as it
was, but for a push into a queue with so much space that the elements left cannot
be counted in an `int`.
-/

namespace Mpt.Queue

/-- A call on a queue.  `push` takes at least one byte; `align` is the one to the
    start of the storage. -/
inductive Op where
  | push (src : Data) (some : 0 < src.len)
  | shift (len : Nat) (wanted : Bool)
  | crop (len : Nat)
  | set (pos : Nat) (src : Data)
  | get (pos len : Nat)
  | align

namespace Op

/-- What a list of at most `cap` bytes has to offer for the call to make sense. -/
def Fits (cap : Nat) (l : List Byte) : Op → Prop
  | push src _ => l.length + src.len ≤ cap
  | shift n _ => n ≤ l.length
  | crop n => n ≤ l.length
  | set pos src => src.len = 0 ∨ pos + src.len ≤ l.length
  | get pos n => n = 0 ∨ pos + n ≤ l.length
  | align => True

/-- The list operation: new content and returned bytes. -/
def effect (l : List Byte) : Op → List Byte × List Byte
  | push src _ => (l ++ src.content, [])
  | shift n _ => (l.drop n, l.take n)
  | crop n => (l.drop n, [])
  | set pos src => (l.take pos ++ src.content ++ l.drop (pos + src.len), [])
  | get pos n => (l, (l.drop pos).take n)
  | align => (l, [])

/-- The calls that succeed whenever the list operation is possible.  Taking
    bytes without a target needs them in one piece. -/
def Total : Op → Prop
  | shift _ wanted => wanted = true
  | _ => True

end Op

/-- `mpt_qpush`, with no result for a negative one. -/
def qpush (q : Queue) (src : Data) : Queue × Option Nat :=
  match q.post src.len with
  | .error _ => (q, none)
  | .ok (q', left) =>
      -- the count of elements left is kept as an `int`
      if overInt left then
        (q', none)
      else
        match q'.setRange (q'.len - src.len) src with
        | .error _ => (q', none)
        | .ok (q'', ret) => (q'', some ret)

/-- One library call: the queue it leaves, and the returned bytes on success. -/
def call (q : Queue) : Op → Queue × Option (List Byte)
  | .push src _ => match q.qpush src with
      | (q', some _) => (q', some [])
      | (q', none) => (q', none)
  | .shift n wanted => match q.shift n wanted with
      | some (q', bytes) => (q', some bytes)
      | none => (q, none)
  | .crop n => match q.crop 0 n with
      | .ok (q', _) => (q', some [])
      | .error _ => (q, none)
  | .set pos src => match q.setRange pos src with
      | .ok (q', _) => (q', some [])
      | .error _ => (q, none)
  | .get pos n => match q.getRange pos n true with
      | .ok (bytes, _) => (q, some bytes)
      | .error _ => (q, none)
  | .align => (q.align 0, some [])

/-- The queue under arbitrary calls. -/
def machine : Machine Queue Op (Option (List Byte)) where
  step := call

/-- What a call is there for: it does the list operation, or nothing at all, and a push fails exactly
    when the data does not fit. -/
structure Does (q : Queue) (op : Op) (r : Queue × Option (List Byte)) : Prop where
  done : ∀ out, r.2 = some out → op.Fits q.max q.content ∧ (r.1.content, out) = op.effect q.content
  failed : r.2 = none → r.1 = q ∧ (op.Total → ¬ op.Fits q.max q.content)
  push : ∀ src pos, op = .push src pos → (r.2 = none ↔ q.max < q.content.length + src.len)

/-- The elements that a push leaves space for can be counted in an `int`, or it does not fit. -/
def Counts (q : Queue) : Op → Prop
  | .push src _ =>
      q.max < q.len + src.len ∨ overInt ((q.max - q.len - src.len) / src.len) = false
  | _ => True

/-- A push that fits makes the queue longer in any case. -/
theorem qpush_over {q : Queue} (v : q.Valid) {src : Data} (some : 0 < src.len)
    (fits : q.len + src.len ≤ q.max)
    (wide : overInt ((q.max - q.len - src.len) / src.len) = true) :
    q.qpush src = ({ q with len := q.len + src.len }, none) := by
  unfold qpush
  rw [post_counts v some fits]
  simp only [wide, if_true]

theorem qpush_counts {q : Queue} (v : q.Valid) {src : Data} (some_ : 0 < src.len)
    (counts : q.max < q.len + src.len ∨
      overInt ((q.max - q.len - src.len) / src.len) = false) :
    (q.len + src.len ≤ q.max ∧ ∃ m ret,
      q.qpush src = ({ q with mem := m, len := q.len + src.len }, some ret) ∧
        ({ q with mem := m, len := q.len + src.len } : Queue).content = q.content ++ src.content) ∨
      (q.max < q.len + src.len ∧ q.qpush src = (q, none)) := by
  have plain := push_spec v src some_
  unfold push at plain
  unfold qpush
  rcases post_spec v some_ with ⟨fits, _, _⟩ | ⟨excess, eq⟩
  · have wide := counts.resolve_left (by omega)
    rw [post_counts v some_ fits] at plain ⊢
    simp only [wide] at plain ⊢
    rcases plain with ⟨_, m, ret, stored, cells⟩ | ⟨excess, _⟩
    · refine .inl ⟨fits, m, ret, ?_, cells⟩
      split at stored
      · cases stored
      · next set =>
          obtain ⟨rfl, eq⟩ := Prod.mk.inj stored
          cases eq
          simp only [Bool.false_eq_true, if_false, set]
    · omega
  · exact .inr ⟨excess, by rw [eq]⟩

/-- What one call does where the elements can be counted: either the list operation on the content,
    or nothing. -/
theorem call_cases {q : Queue} (v : q.Valid) {op : Op} (counts : q.Counts op) :
    (∃ q' out, q.call op = (q', some out) ∧ op.Fits q.max q.content ∧ q'.Valid ∧
        q'.max = q.max ∧ (q'.content, out) = op.effect q.content) ∨
      (q.call op = (q, none) ∧ (op.Total → ¬ op.Fits q.max q.content)) := by
  cases op with
  | push src some =>
      simp only [call, Op.Fits, Op.effect, length_content]
      rcases qpush_counts v some counts with ⟨fits, m, ret, eq, cells⟩ | ⟨excess, eq⟩
      · rw [eq]
        exact .inl ⟨_, _, rfl, fits, ⟨v.off_le, fits⟩, rfl, by rw [cells]⟩
      · rw [eq]
        exact .inr ⟨rfl, fun _ => by omega⟩
  | shift n wanted =>
      simp only [call, Op.Fits, Op.effect, Op.Total, length_content]
      rcases shift_spec v n wanted with ⟨fits, eq⟩ | eq
      · rw [eq]
        exact .inl ⟨_, _, rfl, fits, dropFront_valid v fits, rfl, by rw [content_dropFront v]⟩
      · rw [eq]
        refine .inr ⟨rfl, fun total fits => ?_⟩
        subst total
        exact absurd eq (shift_some v fits)
  | crop n =>
      simp only [call, Op.Fits, Op.effect, length_content]
      rcases q.crop_front n with ⟨fits, ret, eq⟩ | ⟨excess, eq⟩
      · rw [eq]
        exact .inl ⟨_, _, rfl, fits, dropFront_valid v fits, rfl, by rw [content_dropFront v]⟩
      · rw [eq]
        exact .inr ⟨rfl, fun _ => by omega⟩
  | set pos src =>
      simp only [call, Op.Fits, Op.effect, length_content]
      rcases setRange_spec v pos src with ⟨fits, m, ret, eq, cells⟩ | ⟨some, excess, e, eq⟩
      · rw [eq]
        exact .inl ⟨_, _, rfl, fits, ⟨v.off_le, v.len_le⟩, rfl, by rw [cells]⟩
      · rw [eq]
        exact .inr ⟨rfl, fun _ => by omega⟩
  | get pos n =>
      simp only [call, Op.Fits, Op.effect, length_content]
      rcases getRange_spec v pos n with ⟨fits, ok⟩ | ⟨some, excess, fail⟩
      · obtain ⟨ret, eq⟩ := ok true
        rw [eq]
        exact .inl ⟨_, _, rfl, fits, v, rfl, rfl⟩
      · obtain ⟨e, eq⟩ := fail true
        rw [eq]
        exact .inr ⟨rfl, fun _ => by omega⟩
  | align =>
      obtain ⟨m, start, eq, le, _, cells⟩ := align_zero v
      refine .inl ⟨q.align 0, [], rfl, trivial, ?_, ?_, by rw [cells]; rfl⟩
      · rw [eq]
        exact ⟨le, v.len_le⟩
      · rw [eq]

theorem call_over {q : Queue} (v : q.Valid) {op : Op} (wide : ¬ q.Counts op) :
    ∃ n, 0 < n ∧ q.len + n ≤ q.max ∧ q.call op = ({ q with len := q.len + n }, none) := by
  cases op with
  | push src some_ =>
      unfold Counts at wide
      rw [not_or, Bool.not_eq_false] at wide
      have fits : q.len + src.len ≤ q.max := by omega
      exact ⟨src.len, some_, fits, by rw [call, qpush_over v some_ fits wide.2]⟩
  | shift | crop | set | get | align => exact absurd trivial wide

theorem call_valid {q : Queue} (v : q.Valid) (op : Op) :
    (q.call op).1.Valid ∧ (q.call op).1.max = q.max := by
  by_cases counts : q.Counts op
  · rcases call_cases v counts with ⟨q', out, eq, _, v', cap, _⟩ | ⟨eq, _⟩
    · rw [eq]
      exact ⟨v', cap⟩
    · rw [eq]
      exact ⟨v, rfl⟩
  · obtain ⟨n, _, fits, eq⟩ := call_over v counts
    rw [eq]
    exact ⟨⟨v.off_le, fits⟩, rfl⟩

/-- The bounds hold in every state reached, and the capacity never changes. -/
theorem reached_valid {q : Queue} (v : q.Valid) (ops : List Op) :
    (machine.after q ops).Valid ∧ (machine.after q ops).max = q.max := by
  refine machine.invariant_always (P := fun s => s.Valid ∧ s.max = q.max) ?_ ⟨v, rfl⟩ ops
  rintro s op ⟨sv, cap⟩
  obtain ⟨sv', cap'⟩ := call_valid sv op
  exact ⟨sv', cap'.trans cap⟩

/-- A call does what it is there for exactly when the elements can be counted. -/
theorem does_iff {q : Queue} (v : q.Valid) (op : Op) : q.Does op (q.call op) ↔ q.Counts op := by
  constructor
  · intro does
    by_contra wide
    obtain ⟨n, some_, _, eq⟩ := call_over v wide
    have same := (does.failed (by rw [eq])).1
    rw [eq] at same
    have len := congrArg Queue.len same
    simp only at len
    omega
  · intro counts
    rcases call_cases v counts with ⟨q', out, eq, fits, _, _, same⟩ | ⟨eq, blocked⟩
    · rw [eq]
      refine ⟨?_, ?_, ?_⟩
      · intro out' same'
        obtain rfl := Option.some.inj same'
        exact ⟨fits, same⟩
      · intro none
        cases none
      · rintro src pos rfl
        have room : q.content.length + src.len ≤ q.max := fits
        simp only [reduceCtorEq, false_iff]
        exact Nat.not_lt.mpr room
    · rw [eq]
      refine ⟨?_, fun _ => ⟨rfl, blocked⟩, ?_⟩
      · intro out same
        cases same
      · rintro src pos rfl
        have excess : ¬ q.content.length + src.len ≤ q.max := blocked trivial
        simp only [true_iff]
        exact Nat.not_le.mp excess

/-- In a run whose pushes can count the elements left, every call does what it is there for, and the
    next one does exactly when it is one of these.  The bounds hold in every state reached. -/
theorem machine_fifo {q : Queue} (v : q.Valid) (ops : List Op) :
    (machine.Meets Counts q ops → machine.Meets (fun s op => s.Does op (machine.step s op)) q ops) ∧
      (machine.after q ops).Valid ∧ (machine.after q ops).max = q.max ∧
      ∀ op, (machine.after q ops).Does op (machine.step (machine.after q ops) op) ↔
        (machine.after q ops).Counts op := by
  refine ⟨?_, (reached_valid v ops).1, (reached_valid v ops).2,
    fun op => does_iff (reached_valid v ops).1 op⟩
  intro counts
  induction ops generalizing q with
  | nil => trivial
  | cons op ops ih => exact ⟨(does_iff v op).mpr counts.1, ih (call_valid v op).1 counts.2⟩

/-- A wrapped queue of capacity four. -/
def wrappedExample : Queue := ⟨fun i => UInt8.ofNat i, 16, 3, 4, 2⟩

theorem machine_fifo_wrapped :
    machine.Meets (fun s op => s.Does op (machine.step s op)) wrappedExample
        [.shift 1 true, .push (.bytes [7, 8]) (by decide)] ∧
      (machine.after wrappedExample [.shift 1 true, .push (.bytes [7, 8]) (by decide)]).content =
        [19, 16, 7, 8] := by
  refine ⟨?_, by decide⟩
  exact (machine_fifo (q := wrappedExample) ⟨by decide, by decide⟩
    [.shift 1 true, .push (.bytes [7, 8]) (by decide)]).1 ⟨trivial, .inr (by decide), trivial⟩

/-- An empty queue of four gigabytes. -/
def wideExample : Queue := ⟨fun _ => 0, 16, 0, 2 ^ 32, 0⟩

/-- A push of one byte fails and makes the queue longer. -/
theorem push_uncounted :
    ¬ ∀ (q : Queue) (op : Op), q.Valid → q.Does op (machine.step q op) := by
  intro all
  have counts := (does_iff (q := wideExample) ⟨by decide, by decide⟩
    (.push (.bytes [7]) (by decide))).mp (all _ _ ⟨by decide, by decide⟩)
  rcases counts with excess | counted
  · exact absurd excess (by decide)
  · exact absurd counted (by decide)

end Mpt.Queue
