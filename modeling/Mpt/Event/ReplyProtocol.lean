import Mpt.Event.Reply
import Mpt.Run
import Mathlib.Data.List.Perm.Basic

/-! # The protocol of reply contexts

`Ledger` is about the ids: every one that is kept is as it was set, and among the
requests kept and those answered none occurs twice.  `Sound` adds the life time of
the context: its count is the number of references and handles.
-/

namespace Mpt.Event

/-- A request id, in which the reply flag is clear. -/
structure RequestId where
  src : Data
  clear : ∀ b ∈ src.content.head?, b < 0x80

/-- The calls; those on the context take a reference, and `deferReply` the handle at a
    position. -/
inductive ReplyOp where
  | set (part : Part) (id : RequestId)
  | reply (msg : Option (List Byte))
  | defer
  | addref
  | unref
  | deferReply (pos : Nat) (msg : Option (List Byte))

namespace ReplyWorld

/-- Without a reference, or a handle, there is no call. -/
def step (env : ReplyEnv) (w : ReplyWorld) (op : ReplyOp) : ReplyWorld × Option (Except Error Nat) :=
  match op with
  | .deferReply pos msg =>
      if pos < w.handles.length then
        let (w, ret) := w.deferReply env pos msg
        (w, some ret)
      else
        (w, none)
  | .set part id =>
      if w.owners = 0 then
        (w, none)
      else
        let (w, ret) := w.set part id.src
        (w, some ret)
  | .reply msg =>
      if w.owners = 0 then
        (w, none)
      else
        let (w, ret) := w.contextSet env msg
        (w, some ret)
  | .defer => if w.owners = 0 then (w, none) else ((w.contextDefer env).1, none)
  | .addref =>
      if w.owners = 0 then
        (w, none)
      else
        let (w, ret) := w.contextRef
        ({ w with owners := if ret = 0 then w.owners else w.owners + 1 }, none)
  | .unref =>
      if w.owners = 0 then
        (w, none)
      else
        ({ w with owners := w.owners - 1 }.contextUnref env, none)

def machine (env : ReplyEnv) : Machine ReplyWorld ReplyOp (Option (Except Error Nat)) where
  step := step env

/-- The reply data with a request that is not answered yet. -/
def held (w : ReplyWorld) : List ReplyData :=
  (match w.ctx with
    | some ctx => if ctx.data.len = 0 then [] else [ctx.data]
    | none => []) ++ w.handles

end ReplyWorld

/-- The requests that have been answered. -/
def delivered (sends : List Sent) : List Nat := (sends.filter Sent.ok).map Sent.serial

/-- What is known about requests kept, calls of the send function and the ids set. -/
structure Ledger (held : List ReplyData) (sends : List Sent) (requests : List (List Byte)) :
    Prop where
  once : (held.map ReplyData.serial ++ delivered sends).Nodup
  known : ∀ x ∈ sends, x.serial < requests.length
  stored : ∀ rd ∈ held, rd.len ≠ 0 ∧ requests[rd.serial]? = some rd.id
  handed : ∀ x ∈ sends, ∃ id, requests[x.serial]? = some id ∧ x.id = setFlag id
  clear : ∀ id ∈ requests, ∀ b ∈ id.head?, b < 0x80

variable {held held' : List ReplyData} {sends : List Sent} {requests : List (List Byte)}

@[simp] theorem delivered_append (sends sends' : List Sent) :
    delivered (sends ++ sends') = delivered sends ++ delivered sends' := by
  simp [delivered]

theorem Ledger.perm (h : Ledger held sends requests) (same : held'.Perm held) :
    Ledger held' sends requests where
  once := ((same.map _).append_right _).nodup_iff.mpr h.once
  known := h.known
  stored := fun rd mem => h.stored rd (same.mem_iff.mp mem)
  handed := h.handed
  clear := h.clear

/-- A request may be dropped without an answer. -/
theorem Ledger.drop {rd : ReplyData} (h : Ledger (rd :: held) sends requests) :
    Ledger held sends requests where
  once := (List.nodup_cons.mp h.once).2
  known := h.known
  stored := fun rd mem => h.stored rd (List.mem_cons_of_mem _ mem)
  handed := h.handed
  clear := h.clear

theorem setFlag_take (val : List Byte) (n : Nat) : setFlag (val.take n) = (setFlag val).take n := by
  cases val with
  | nil => simp [setFlag]
  | cons b val =>
      cases n with
      | zero => rfl
      | succ n => rfl

theorem flag_clear (b : Byte) (low : b < 0x80) : (b ||| 0x80) &&& 0x7f = b := by
  have all : ∀ n : Fin 128, (UInt8.ofNat n.1 ||| 0x80) &&& 0x7f = UInt8.ofNat n.1 := by
    decide +kernel
  have lt : b.toNat < 128 := UInt8.lt_iff_toNat_lt.mp low
  have this := all ⟨b.toNat, lt⟩
  simpa using this

theorem clear_setFlag {val : List Byte} (clear : ∀ b ∈ val.head?, b < 0x80) :
    clearFlag (setFlag val) = val := by
  cases val with
  | nil => rfl
  | cons b val =>
      simp [setFlag, clearFlag, flag_clear b (clear b rfl)]

/-- What becomes of a request that is handed to `contextSend`. -/
inductive Settled (rd : ReplyData) (sends sends' : List Sent) (rd' : ReplyData)
    (ret : Except Error Nat) : Prop where
  | answered (msg : Option (List Byte)) (none : rd'.len = 0)
      (sent : sends' = sends ++ [⟨rd.serial, setFlag rd.id, msg, true⟩]) (ok : ret = .ok 0)
  | failed (msg : Option (List Byte)) (kept : rd' = rd)
      (sent : sends' = sends ++ [⟨rd.serial, setFlag rd.id, msg, false⟩])
      (error : ret = .error .badOperation)
  | silent (left : rd'.len = 0 ∨ rd' = rd) (same : sends' = sends) (ok : ret = .ok 0)

theorem contextSend_settled (env : ReplyEnv) (ctx : Context) (sends : List Sent) {rd : ReplyData}
    (msg : Option (List Byte)) (isOpen : rd.len ≠ 0) (clear : ∀ b ∈ rd.id.head?, b < 0x80) :
    ∃ sends' rd' ret, contextSend env ctx sends rd msg = (sends', rd', ret) ∧
      Settled rd sends sends' rd' ret := by
  obtain ⟨max, len, val, serial⟩ := rd
  simp only [ReplyData.id] at isOpen clear
  have first : ∀ b ∈ val.head?, b < 0x80 := by
    cases val with
    | nil => simp
    | cons b val =>
        obtain ⟨n, rfl⟩ := Nat.exists_eq_succ_of_ne_zero isOpen
        simpa using clear
  simp only [contextSend, isOpen, if_false]
  by_cases noSend : ctx.send = false
  · rw [if_pos noSend]
    exact ⟨_, _, _, rfl, .silent (.inl rfl) rfl rfl⟩
  rw [if_neg noSend]
  by_cases noTarget : ctx.ptr = 0
  · rw [if_pos noTarget]
    exact ⟨_, _, _, rfl, .silent (.inr rfl) rfl rfl⟩
  rw [if_neg noTarget]
  cases env.send sends.length with
  | true =>
      refine ⟨_, _, _, rfl, .answered msg rfl ?_ rfl⟩
      simp [ReplyData.id, setFlag_take]
  | false =>
      refine ⟨_, _, _, rfl, .failed msg ?_ ?_ rfl⟩
      · simp [clear_setFlag first]
      · simp [ReplyData.id, setFlag_take]

theorem Ledger.handed_clear {rd : ReplyData} (h : Ledger (rd :: held) sends requests) :
    rd.len ≠ 0 ∧ ∀ b ∈ rd.id.head?, b < 0x80 := by
  obtain ⟨isOpen, stored⟩ := h.stored rd (List.mem_cons_self ..)
  exact ⟨isOpen, h.clear _ (List.mem_of_getElem? stored)⟩

theorem Ledger.sent {rd : ReplyData} (h : Ledger (rd :: held) sends requests)
    (msg : Option (List Byte)) (ok : Bool) :
    (∀ x ∈ sends ++ [⟨rd.serial, setFlag rd.id, msg, ok⟩], x.serial < requests.length) ∧
      ∀ x ∈ sends ++ [⟨rd.serial, setFlag rd.id, msg, ok⟩],
        ∃ id, requests[x.serial]? = some id ∧ x.id = setFlag id := by
  obtain ⟨_, stored⟩ := h.stored rd (List.mem_cons_self ..)
  obtain ⟨inside, _⟩ := List.getElem?_eq_some_iff.mp stored
  constructor
  · intro x mem
    rcases List.mem_append.mp mem with mem | mem
    · exact h.known x mem
    · rw [List.mem_singleton.mp mem]
      exact inside
  · intro x mem
    rcases List.mem_append.mp mem with mem | mem
    · exact h.handed x mem
    · rw [List.mem_singleton.mp mem]
      exact ⟨rd.id, stored, rfl⟩

/-- After a call of `contextSend` the request is still kept, or gone. -/
theorem Ledger.settle {rd rd' : ReplyData} {sends' : List Sent} {ret : Except Error Nat}
    (h : Ledger (rd :: held) sends requests) (s : Settled rd sends sends' rd' ret) :
    Ledger ((if rd'.len = 0 then [] else [rd']) ++ held) sends' requests ∧
      Ledger held sends' requests := by
  have isOpen := h.handed_clear.1
  cases s with
  | answered msg none sent ok =>
      have next : Ledger held sends' requests := by
        refine ⟨?_, ?_, h.drop.stored, ?_, h.clear⟩
        · have moved : (held.map ReplyData.serial ++ delivered sends').Perm
              ((rd :: held).map ReplyData.serial ++ delivered sends) := by
            rw [sent, delivered_append, List.perm_iff_count]
            intro x
            simp [delivered, List.count_append, List.count_cons]
            omega
          exact moved.nodup_iff.mpr h.once
        · rw [sent]
          exact (h.sent msg true).1
        · rw [sent]
          exact (h.sent msg true).2
      rw [none, if_pos rfl]
      exact ⟨next, next⟩
  | failed msg kept sent error =>
      subst kept
      have next : Ledger (rd' :: held) sends' requests := by
        refine ⟨?_, ?_, h.stored, ?_, h.clear⟩
        · rw [sent, delivered_append]
          simpa [delivered] using h.once
        · rw [sent]
          exact (h.sent msg false).1
        · rw [sent]
          exact (h.sent msg false).2
      rw [if_neg isOpen]
      exact ⟨next, next.drop⟩
  | silent left same ok =>
      subst same
      refine ⟨?_, h.drop⟩
      rcases left with none | kept
      · rw [if_pos none]
        exact h.drop
      · rw [kept, if_neg isOpen]
        exact h

/-- One more request is known. -/
theorem Ledger.more (h : Ledger held sends requests) (id : RequestId) :
    Ledger held sends (requests ++ [id.src.content]) := by
  have grow : ∀ {n : Nat} {x : List Byte}, requests[n]? = some x →
      (requests ++ [id.src.content])[n]? = some x := by
    intro n x at_
    rw [List.getElem?_append_left (List.getElem?_eq_some_iff.mp at_).1]
    exact at_
  refine ⟨h.once, ?_, ?_, ?_, ?_⟩
  · intro x mem
    have := h.known x mem
    simp
    omega
  · intro rd mem
    exact ⟨(h.stored rd mem).1, grow (h.stored rd mem).2⟩
  · intro x mem
    obtain ⟨id, at_, eq⟩ := h.handed x mem
    exact ⟨id, grow at_, eq⟩
  · intro x mem
    rcases List.mem_append.mp mem with mem | mem
    · exact h.clear x mem
    · rw [List.mem_singleton.mp mem]
      exact id.clear

/-- A new request in place of the one kept before. -/
theorem Ledger.request (h : Ledger held sends requests) (id : RequestId) {rd : ReplyData}
    (serial : rd.serial = requests.length) (stored : rd.id = id.src.content) :
    Ledger ((if rd.len = 0 then [] else [rd]) ++ held) sends (requests ++ [id.src.content]) := by
  have others := h.more id
  split
  · exact others
  · rename_i isOpen
    refine ⟨?_, others.known, ?_, others.handed, others.clear⟩
    · simp only [List.cons_append, List.map_cons, List.nodup_cons]
      refine ⟨?_, h.once⟩
      rw [serial]
      intro mem
      rcases List.mem_append.mp mem with mem | mem
      · obtain ⟨rd', mem, eq⟩ := List.mem_map.mp mem
        have := (List.getElem?_eq_some_iff.mp (h.stored rd' mem).2).1
        omega
      · obtain ⟨x, mem, eq⟩ := List.mem_map.mp mem
        have := h.known x (List.mem_of_mem_filter mem)
        omega
    · intro rd' mem
      rcases List.mem_cons.mp mem with rfl | mem
      · exact ⟨isOpen, by rw [serial, stored]; simp⟩
      · exact others.stored rd' mem

namespace ReplyWorld

/-- The context lives as long as there is a reference or a handle, and its reply
    interface is intact. -/
structure Alive (w : ReplyWorld) : Prop where
  counted : ∀ ctx, w.ctx = some ctx →
    ctx.ref = w.owners + w.handles.length ∧ 0 < ctx.ref ∧ ctx.vptr = true ∧ w.frees = 0
  freed : w.ctx = none → w.owners = 0 ∧ w.handles = [] ∧ w.frees = 1
  noFault : w.fault = false

structure Sound (w : ReplyWorld) : Prop where
  alive : Alive w
  ledger : Ledger w.held w.sends w.requests

variable {env : ReplyEnv} {w : ReplyWorld}

theorem sound_start (len : Nat) (send : Bool) (ptr : Nat) : Sound (deferrable len send ptr) where
  alive := by
    refine ⟨?_, ?_, rfl⟩
    · rintro ctx eq
      obtain rfl := Option.some.inj eq
      exact ⟨rfl, Nat.one_pos, rfl, rfl⟩
    · intro none
      cases none
  ledger := by
    refine ⟨List.nodup_nil, ?_, ?_, ?_, ?_⟩
    all_goals simp [deferrable, held]

theorem Alive.ctx (h : Alive w) (used : 0 < w.owners + w.handles.length) :
    ∃ ctx, w.ctx = some ctx := by
  cases eq : w.ctx with
  | some ctx => exact ⟨ctx, rfl⟩
  | none =>
      obtain ⟨owners, handles, _⟩ := h.freed eq
      simp [owners, handles] at used

theorem lower_eq {refs : Nat} (some : 0 < refs) :
    Heap.refcountLower refs = (refs - 1, decide (refs - 1 = 0)) := by
  rw [Heap.refcountLower, if_neg (by omega)]

/-- The counts once a reference or a handle is given up, before the context is told. -/
structure Leaving (w : ReplyWorld) (ctx : Context) : Prop where
  ctx_eq : w.ctx = some ctx
  counted : ctx.ref = w.owners + w.handles.length + 1
  vptr : ctx.vptr = true
  frees : w.frees = 0
  noFault : w.fault = false

theorem detach_alive (ctx : Context) (h : Leaving w ctx) : Alive w.contextDetach := by
  have counted := h.counted
  unfold contextDetach
  rw [h.ctx_eq]
  simp only
  rw [lower_eq (by omega)]
  by_cases last : ctx.ref - 1 = 0
  · simp only [last, decide_true]
    refine ⟨fun ctx' eq => (by cases eq), fun _ => ⟨?_, ?_, ?_⟩, h.noFault⟩
    · simp only [free]
      omega
    · simp only [free]
      exact List.eq_nil_of_length_eq_zero (by omega)
    · simp only [free, h.frees]
  · simp only [last, decide_false]
    refine ⟨fun ctx' eq => ?_, fun eq => (by cases eq), h.noFault⟩
    obtain rfl := Option.some.inj eq
    exact ⟨by simp only; omega, by simp only; omega, h.vptr, h.frees⟩

theorem detach_same (w : ReplyWorld) : w.contextDetach.handles = w.handles ∧
    w.contextDetach.sends = w.sends ∧ w.contextDetach.requests = w.requests := by
  unfold contextDetach
  split
  · exact ⟨rfl, rfl, rfl⟩
  · split <;> exact ⟨rfl, rfl, rfl⟩

/-- Giving up a handle leaves what the context and the other handles keep. -/
theorem detach_ledger (ctx : Context) (eq : w.ctx = some ctx)
    (h : Ledger w.held w.sends w.requests) :
    Ledger w.contextDetach.held w.contextDetach.sends w.contextDetach.requests := by
  obtain ⟨handles, sends, requests⟩ := detach_same w
  rw [sends, requests]
  have all : w.held = (if ctx.data.len = 0 then [] else [ctx.data]) ++ w.handles := by
    simp [held, eq]
  have handlesOnly : Ledger w.handles w.sends w.requests := by
    rw [all] at h
    split at h
    · exact h
    · exact h.drop
  unfold held
  rw [handles]
  cases after : w.contextDetach.ctx with
  | none => exact handlesOnly
  | some ctx' =>
      have data : ctx'.data = ctx.data := by
        unfold contextDetach at after
        rw [eq] at after
        simp only at after
        split at after
        · obtain rfl := Option.some.inj after
          rfl
        · cases after
      simp only [data]
      rw [all] at h
      exact h

theorem held_eq {ctx : Context} (eq : w.ctx = some ctx) :
    w.held = (if ctx.data.len = 0 then [] else [ctx.data]) ++ w.handles := by
  simp [held, eq]

/-- What the handles keep, and a request of the context besides it. -/
theorem Sound.parts (h : Sound w) {ctx : Context} (eq : w.ctx = some ctx) :
    Ledger w.handles w.sends w.requests ∧
      (ctx.data.len ≠ 0 → Ledger (ctx.data :: w.handles) w.sends w.requests) := by
  have ledger := h.ledger
  rw [held_eq eq] at ledger
  by_cases empty : ctx.data.len = 0
  · rw [if_pos empty] at ledger
    exact ⟨ledger, fun isOpen => absurd empty isOpen⟩
  · rw [if_neg empty] at ledger
    exact ⟨ledger.drop, fun _ => ledger⟩

theorem sound_set (h : Sound w) (used : w.owners ≠ 0) (id : RequestId) :
    Sound (w.set .data id.src).1 := by
  obtain ⟨ctx, eq⟩ := h.alive.ctx (by omega)
  have alive := h.alive.counted ctx eq
  unfold set
  rw [eq]
  simp only
  refine ⟨⟨fun ctx' eq' => ?_, fun eq' => (by cases eq'), h.alive.noFault⟩, ?_⟩
  · obtain rfl := Option.some.inj eq'
    exact alive
  · unfold replySet
    split
    · -- the id is too long, the one before it stays
      have ledger := h.ledger.more id
      rw [held_eq eq] at ledger
      exact ledger
    · exact (h.parts eq).1.request id rfl (by simp [ReplyData.id])

theorem sound_reply (h : Sound w) (used : w.owners ≠ 0) (msg : Option (List Byte)) :
    Sound (w.contextSet env msg).1 := by
  obtain ⟨ctx, eq⟩ := h.alive.ctx (by omega)
  have alive := h.alive.counted ctx eq
  unfold contextSet
  rw [eq]
  simp only [alive.2.2.1, Bool.true_eq_false, if_false]
  refine ⟨⟨fun ctx' eq' => ?_, fun eq' => (by cases eq'), h.alive.noFault⟩, ?_⟩
  · obtain rfl := Option.some.inj eq'
    exact ⟨alive.1, alive.2.1, rfl, alive.2.2.2⟩
  · by_cases empty : ctx.data.len = 0
    · have ledger := h.ledger
      rw [held_eq eq] at ledger
      simp only [contextSend, empty, if_true] at ledger ⊢
      simpa [held, empty] using ledger
    · have ledger := (h.parts eq).2 empty
      obtain ⟨isOpen, clear⟩ := ledger.handed_clear
      obtain ⟨sends', rd', ret, call, settled⟩ :=
        contextSend_settled env ctx w.sends msg isOpen clear
      rw [call]
      exact (ledger.settle settled).1

theorem sound_defer (h : Sound w) (used : w.owners ≠ 0) : Sound (w.contextDefer env).1 := by
  obtain ⟨ctx, eq⟩ := h.alive.ctx (by omega)
  obtain ⟨count, some, vptr, frees⟩ := h.alive.counted ctx eq
  unfold contextDefer
  rw [eq]
  simp only [vptr, Bool.true_eq_false, if_false]
  by_cases empty : ctx.data.len = 0
  · rw [if_pos empty]
    exact h
  rw [if_neg empty]
  by_cases full : ctx.ref = 0 ∨ ctx.ref + 1 = Heap.sizeLimit
  · simp only [Heap.refcountRaise, full, if_true]
    exact h
  · simp only [Heap.refcountRaise, full, if_false]
    have number : w.mallocs + 1 - 1 = w.mallocs := Nat.add_sub_cancel ..
    cases made : env.malloc w.mallocs with
    | true =>
        simp only [number, made, if_true]
        refine ⟨⟨fun ctx' eq' => ?_, fun eq' => (by cases eq'), h.alive.noFault⟩, ?_⟩
        · obtain rfl := Option.some.inj eq'
          refine ⟨?_, Nat.succ_pos _, rfl, frees⟩
          simp only [List.length_append, List.length_singleton]
          omega
        · have moved : (w.handles ++ [ctx.data]).Perm (ctx.data :: w.handles) :=
            List.perm_append_singleton _ _
          exact ((h.parts eq).2 empty).perm moved
    | false =>
        simp only [number, made, Bool.false_eq_true, if_false]
        refine ⟨⟨fun ctx' eq' => ?_, fun eq' => (by cases eq'), h.alive.noFault⟩, ?_⟩
        · obtain rfl := Option.some.inj eq'
          rw [lower_eq (Nat.succ_pos _)]
          exact ⟨count, some, rfl, frees⟩
        · have ledger := h.ledger
          rw [held_eq eq] at ledger
          exact ledger

theorem sound_addref (h : Sound w) (used : w.owners ≠ 0) :
    Sound (step env w .addref).1 := by
  obtain ⟨ctx, eq⟩ := h.alive.ctx (by omega)
  obtain ⟨count, some, vptr, frees⟩ := h.alive.counted ctx eq
  have ledger := h.ledger
  rw [held_eq eq] at ledger
  simp only [step, used, if_false, contextRef, eq]
  by_cases full : ctx.ref = 0 ∨ ctx.ref + 1 = Heap.sizeLimit
  · simp only [Heap.refcountRaise, full, if_true]
    refine ⟨⟨fun ctx' eq' => ?_, fun eq' => (by cases eq'), h.alive.noFault⟩, ledger⟩
    obtain rfl := Option.some.inj eq'
    exact ⟨count, some, vptr, frees⟩
  · simp only [Heap.refcountRaise, full, if_false, Nat.add_eq_zero_iff, Nat.one_ne_zero, and_false]
    refine ⟨⟨fun ctx' eq' => ?_, fun eq' => (by cases eq'), h.alive.noFault⟩, ledger⟩
    obtain rfl := Option.some.inj eq'
    refine ⟨?_, Nat.succ_pos _, vptr, frees⟩
    simp only
    omega

theorem sound_unref (h : Sound w) (used : w.owners ≠ 0) :
    Sound ({ w with owners := w.owners - 1 }.contextUnref env) := by
  obtain ⟨ctx, eq⟩ := h.alive.ctx (by omega)
  obtain ⟨count, some, vptr, frees⟩ := h.alive.counted ctx eq
  simp only [contextUnref, eq]
  rw [lower_eq some]
  by_cases last : ctx.ref - 1 = 0
  · have handles : w.handles = [] := List.eq_nil_of_length_eq_zero (by omega)
    simp only [last, decide_true]
    have gone : ∀ sends, Alive (free { w with owners := w.owners - 1, sends := sends }) := by
      intro sends
      refine ⟨fun ctx' eq' => (by cases eq'), fun _ => ⟨?_, handles, ?_⟩, h.alive.noFault⟩
      · simp only [free]
        omega
      · simp only [free, frees]
    split
    · rename_i pending
      have ledger := (h.parts eq).2 pending.2
      obtain ⟨isOpen, clear⟩ := ledger.handed_clear
      obtain ⟨sends', rd', ret, call, settled⟩ :=
        contextSend_settled env ctx w.sends none isOpen clear
      simp only [call]
      exact ⟨gone sends', (ledger.settle settled).2⟩
    · exact ⟨gone w.sends, (h.parts eq).1⟩
  · simp only [last, decide_false]
    refine ⟨⟨fun ctx' eq' => ?_, fun eq' => (by cases eq'), h.alive.noFault⟩, ?_⟩
    · obtain rfl := Option.some.inj eq'
      refine ⟨?_, ?_, vptr, frees⟩
      · simp only
        omega
      · simp only
        omega
    · have ledger := h.ledger
      rw [held_eq eq] at ledger
      exact ledger

theorem sound_deferReply (h : Sound w) {pos : Nat} (inside : pos < w.handles.length)
    (msg : Option (List Byte)) : Sound (w.deferReply env pos msg).1 := by
  obtain ⟨ctx, eq⟩ := h.alive.ctx (by omega)
  obtain ⟨count, some, vptr, frees⟩ := h.alive.counted ctx eq
  have at_ : w.handles[pos]? = Option.some w.handles[pos] := List.getElem?_eq_getElem inside
  have front : w.held.Perm (w.handles[pos] ::
      ((if ctx.data.len = 0 then [] else [ctx.data]) ++ w.handles.eraseIdx pos)) := by
    have take := (List.getElem_cons_eraseIdx_perm inside).symm
    rw [held_eq eq]
    exact (take.append_left _).trans List.perm_middle
  have ledger := h.ledger.perm front.symm
  obtain ⟨isOpen, clear⟩ := ledger.handed_clear
  obtain ⟨sends', rd', ret, call, settled⟩ :=
    contextSend_settled env ctx w.sends msg isOpen clear
  have dropped : Sound { w with sends := sends', handles := w.handles.eraseIdx pos }.contextDetach := by
    refine ⟨detach_alive ctx ⟨eq, ?_, vptr, frees, h.alive.noFault⟩,
      detach_ledger ctx eq ?_⟩
    · simp only [List.length_eraseIdx, inside, if_true]
      omega
    · have after := (ledger.settle settled).2
      rw [held, eq]
      exact after
  unfold deferReply
  rw [at_, eq]
  simp only [call]
  rw [eq] at dropped
  cases settled with
  | answered _ none sent ok =>
      subst ok
      exact dropped
  | silent left same ok =>
      subst ok
      exact dropped
  | failed msg' kept sent error =>
      subst error kept
      cases msg with
      | none => exact dropped
      | some text =>
          simp only [Option.isSome_some, if_true, List.set_getElem_self]
          refine ⟨⟨fun ctx' eq' => h.alive.counted ctx' (eq.trans eq'), ?_, h.alive.noFault⟩, ?_⟩
          · intro none
            cases none
          · have after := (ledger.settle (.failed msg' rfl sent (rfl : (.error .badOperation : Except Error Nat) = _))).1
            rw [if_neg isOpen] at after
            have back := after.perm front
            rw [held_eq eq] at back
            exact back

theorem sound_step (h : Sound w) (op : ReplyOp) (direct : ∀ part id, op = .set part id → part = .data) :
    Sound (step env w op).1 := by
  cases op with
  | set part id =>
      obtain rfl := direct part id rfl
      simp only [step]
      split
      · exact h
      · exact sound_set h ‹_› id
  | reply msg =>
      simp only [step]
      split
      · exact h
      · exact sound_reply h ‹_› msg
  | defer =>
      simp only [step]
      split
      · exact h
      · exact sound_defer h ‹_›
  | addref =>
      by_cases used : w.owners = 0
      · simp only [step, used, if_true]
        exact h
      · exact sound_addref h used
  | unref =>
      simp only [step]
      split
      · exact h
      · exact sound_unref h ‹_›
  | deferReply pos msg =>
      simp only [step]
      split
      · exact sound_deferReply h ‹_› msg
      · exact h

/-- The id is set in the reply data itself, not through the pointer that a conversion
    of the context gives. -/
def Direct : ReplyWorld → ReplyOp → Prop
  | _, .set part _ => part = .data
  | _, _ => True

/-- Every request is answered at most once, with the flag only in the id handed to
    `send`; the context lives until the last reference and the last handle are gone,
    and is freed once. -/
theorem reply_protocol (env : ReplyEnv) (len : Nat) (send : Bool) (ptr : Nat) (ops : List ReplyOp)
    (direct : (machine env).Meets Direct (deferrable len send ptr) ops) :
    let w := (machine env).after (deferrable len send ptr) ops
    (delivered w.sends).Nodup ∧
      (∀ x ∈ w.sends, ∃ id, w.requests[x.serial]? = some id ∧ x.id = setFlag id) ∧
      (∀ rd ∈ w.held, w.requests[rd.serial]? = some rd.id ∧ (∀ b ∈ rd.id.head?, b < 0x80) ∧
        rd.serial ∉ delivered w.sends) ∧
      (w.ctx = none ↔ w.owners = 0 ∧ w.handles = []) ∧
      w.frees = (if w.ctx = none then 1 else 0) ∧ w.fault = false := by
  intro w
  have sound : Sound w := by
    refine Machine.invariant (P := Sound) ?_ (sound_start len send ptr) direct
    intro s op h ok
    refine sound_step h op ?_
    rintro part id rfl
    exact ok
  have once := List.nodup_append.mp sound.ledger.once
  refine ⟨once.2.1, sound.ledger.handed, fun rd mem => ?_, ?_, ?_, sound.alive.noFault⟩
  · have stored := (sound.ledger.stored rd mem).2
    refine ⟨stored, sound.ledger.clear _ (List.mem_of_getElem? stored), fun sent => ?_⟩
    exact once.2.2 _ (List.mem_map_of_mem mem) _ sent rfl
  · constructor
    · intro none
      obtain ⟨owners, handles, _⟩ := sound.alive.freed none
      exact ⟨owners, handles⟩
    · rintro ⟨owners, handles⟩
      cases eq : w.ctx with
      | none => rfl
      | some ctx =>
          obtain ⟨count, some, _⟩ := sound.alive.counted ctx eq
          simp [owners, handles] at count
          omega
  · cases eq : w.ctx with
    | none => exact (sound.alive.freed eq).2.2
    | some ctx => simpa using (sound.alive.counted ctx eq).2.2.2

/-- The id 5 of a request. -/
def idExample : RequestId where
  src := .bytes [5]
  clear := by
    intro b first
    cases first
    decide

/-- A deferred reply that fails once, after the context is given up. -/
theorem reply_protocol_deferred :
    let env : ReplyEnv := ⟨fun _ => true, fun n => n != 0⟩
    let w := (machine env).after (deferrable 8 true 64)
      [.set .data idExample, .defer, .deferReply 0 (some [1]), .deferReply 0 (some [1]), .unref]
    (delivered w.sends).Nodup ∧ w.frees = 1 := by
  intro env w
  have protocol := reply_protocol env 8 true 64
    [.set .data idExample, .defer, .deferReply 0 (some [1]), .deferReply 0 (some [1]), .unref]
    ⟨rfl, trivial, trivial, trivial, trivial, trivial⟩
  have gone : w.ctx = none := by decide
  exact ⟨protocol.1, protocol.2.2.2.2.1.trans (if_pos gone)⟩

/-- The conversion to the reply data gives the reply context: an id that is set there
    overwrites its interface, is not stored, and the reply runs into nothing. -/
theorem converted_id_lost :
    let env : ReplyEnv := ⟨fun _ => true, fun _ => true⟩
    ∃ part, contextConv .replyDataPtr = some part ∧
      let w := (machine env).after (deferrable 8 true 64) [.set part idExample, .reply (some [1])]
      w.held = [] ∧ w.sends = [] ∧ w.fault = true := by
  refine ⟨.ctx, rfl, ?_⟩
  decide

end ReplyWorld

end Mpt.Event
