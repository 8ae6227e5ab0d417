import Mpt.Convert.EncodeSpec
import Mpt.Run

/-! # The part of the target an encoder uses

What the encoders write and what they count, for any content of the target: no
property of the encoded bytes is assumed, only that the state counts no more than
the target has.  The one call that leaves the target is the end of a message with
the tail extension.
-/

namespace Mpt.Cobs.Extent

variable {v : Variant}

/-- How the block loop ends on a target that reaches up to `stop`, when the open
    block does not start before `start`. -/
structure Inside (v : Variant) (m : Mem Byte) (start stop : Nat) (r : EncodeExit) : Prop where
  mem : Mem.Only (fun a => start ≤ a ∧ a < stop) m r.mem
  code : 0 < r.code
  short : r.code < v.maxlen
  fits : start + r.code + r.left ≤ stop

theorem Inside.after {m m' : Mem Byte} {start stop : Nat} {r : EncodeExit}
    (first : Mem.Only (fun a => start ≤ a ∧ a < stop) m m') (h : Inside v m' start stop r) :
    Inside v m start stop r :=
  ⟨first.trans h.mem, h.code, h.short, h.fits⟩

/-- Every round of the block loop stays between the start of the open block and the
    end of the target. -/
theorem encodeLoop_inside (m : Mem Byte) (start dst code left : Nat) (src : List Byte)
    (pos : 0 < code) (short : code < v.maxlen) (front : start + code ≤ dst) :
    Inside v m start (dst + left) (encodeLoop v m dst code left src) := by
  have least := v.short_lt
  fun_induction encodeLoop v m dst code left src with
  | case1 m dst code left =>
      refine ⟨Mem.only_set m ?_ _, pos, short, ?_⟩
      · omega
      · simp only
        omega
  | case2 m dst code curr src =>
      refine ⟨Mem.only_set m ?_ _, pos, short, ?_⟩
      · omega
      · simp only
        omega
  | case3 m dst code left some ih =>
      have next := ih (by omega) (by omega) (by omega)
      rw [show dst + 1 + (left - 1) = dst + left by omega] at next
      exact next.after (Mem.only_set m (by omega) _)
  | case4 m dst code left some next rest paired ih =>
      have next := ih (by omega) (by omega) (by omega)
      rw [show dst + 1 + (left - 1) = dst + left by omega] at next
      exact next.after (Mem.only_set m (by omega) _)
  | case5 m dst code left some next rest unpaired ih =>
      have next := ih (by omega) (by omega) (by omega)
      rw [show dst + 1 + (left - 1) = dst + left by omega] at next
      exact next.after (Mem.only_set m (by omega) _)
  | case6 m dst code left curr src some nonzero full last =>
      refine ⟨(Mem.only_set m ?_ _).trans (Mem.only_set _ ?_ _), pos, short, ?_⟩
      · omega
      · omega
      · simp only
        omega
  | case7 m dst code left curr src some nonzero full more ih =>
      have next := ih (by omega) (by omega) (by omega)
      rw [show dst + 2 + (left - 2) = dst + left by omega] at next
      exact next.after ((Mem.only_set m (by omega) _).trans (Mem.only_set _ (by omega) _))
  | case8 m dst code left curr src some nonzero room ih =>
      have next := ih (by omega) (by omega) (by omega)
      rw [show dst + 1 + (left - 1) = dst + left by omega] at next
      exact next.after (Mem.only_set m (by omega) _)

/-- The target counted by the state exists, and the open block can be continued. -/
structure Fits (v : Variant) (info : EncodeState) (size : Nat) : Prop where
  used : info.done + info.scratch ≤ size
  short : info.scratch < v.maxlen

theorem Fits.code {info : EncodeState} {size : Nat} (h : Fits v info size) :
    info.scratch % 256 = info.scratch := by
  apply Nat.mod_eq_of_lt
  have := h.short
  have := v.maxlen_le
  omega

theorem Fits.grow {info : EncodeState} {size : Nat} (h : Fits v info size) (grow : Nat) :
    Fits v info (size + grow) :=
  ⟨Nat.le_trans h.used (Nat.le_add_right _ _), h.short⟩

theorem fits_done (v : Variant) {done size : Nat} (le : done ≤ size) :
    Fits v ⟨0, done, 0⟩ size := by
  have := v.short_lt
  exact ⟨le, by simp only; omega⟩

/-- A call on the target `t`: it writes only bytes of the target that were not
    finished, counts no more than the target has, and an answer that asks for more
    space leaves everything as it was. -/
structure Safe (info : EncodeState) (m : Mem Byte) (t : Iovec)
    (r : EncodeState × Mem Byte × Except Error Nat) : Prop where
  mem : Mem.Only (fun a => t.base + info.done ≤ a ∧ a < t.base + t.len) m r.2.1
  fits : r.1.done + r.1.scratch ≤ t.len
  missing : r.2.2 = .error .missingBuffer → r.1 = info ∧ r.2.1 = m

/-- A call that answers an error and nothing else. -/
theorem safe_error {info : EncodeState} {m : Mem Byte} {t : Iovec} (h : Fits v info t.len)
    (e : Error) : Safe info m t (info, m, .error e) :=
  ⟨Mem.only_refl _ m, h.used, fun _ => ⟨rfl, rfl⟩⟩

theorem memrchr_lt (m : Mem Byte) (base : Nat) (tok : Byte) {len pos : Nat}
    (found : memrchr m base tok len = some pos) : pos < len := by
  induction len with
  | zero => simp [memrchr] at found
  | succ len ih =>
      unfold memrchr at found
      by_cases here : m (base + len) = tok
      · rw [if_pos here] at found
        obtain rfl := Option.some.inj found
        exact Nat.lt_succ_self _
      · rw [if_neg here] at found
        exact Nat.lt_succ_of_lt (ih found)

theorem deleteLoop_le (m : Mem Byte) (pos count : Nat) {stop : Nat}
    (found : deleteLoop m pos count = some stop) : stop ≤ pos := by
  induction count generalizing pos with
  | zero =>
      obtain rfl := Option.some.inj found
      exact Nat.le_refl _
  | succ count ih =>
      unfold deleteLoop at found
      cases last : memrchr m 0 0 pos with
      | none => simp [last] at found
      | some pos' =>
          simp only [last] at found
          exact Nat.le_trans (ih pos' found) (Nat.le_of_lt (memrchr_lt m 0 0 last))

/-- The regular encoders are safe, whatever they are called with. -/
theorem encode_safe {info : EncodeState} {m : Mem Byte} {t : Iovec} (h : Fits v info t.len)
    (base : Option Data) :
    Safe info m t (encode v info m (some t) base) ∧
      Fits v (encode v info m (some t) base).1 t.len := by
  have error : ∀ e, Safe info m t (info, m, .error e) ∧ Fits v info t.len :=
    fun e => ⟨safe_error h e, h⟩
  have used := h.used
  have least := v.short_lt
  simp only [encode, h.code]
  by_cases null : t.base = 0
  · rw [if_pos null]
    split
    · exact error _
    · exact error _
  rw [if_neg null, if_neg (by omega)]
  cases base with
  | none =>
      by_cases room : t.len - info.done ≤ info.scratch
      · simp only [room, if_true]
        exact error _
      simp only [room, if_false]
      by_cases empty : info.scratch = 0
      · by_cases two : t.len - info.done < 2
        · simp only [empty, two, if_true]
          exact error _
        · simp only [empty, two, if_true, if_false]
          have total : 2 ≤ t.len := by omega
          refine ⟨⟨?_, by simpa using total, by simp⟩, fits_done v total⟩
          exact (Mem.only_set m (by omega) _).trans (Mem.only_set _ (by omega) _)
      · simp only [empty, if_false]
        have total : info.done + (info.scratch + 1) ≤ t.len := by omega
        refine ⟨⟨?_, by simpa using total, by simp⟩, fits_done v total⟩
        exact (Mem.only_set m (by omega) _).trans (Mem.only_set _ (by omega) _)
  | some base =>
      cases base with
      | null len =>
          by_cases zero : len = 0
          · simp only [zero, if_true]
            exact error _
          simp only [zero, if_false]
          cases found : deleteLoop m info.done (if info.ctx ≠ 0 then len - 1 else len) with
          | none =>
              simp only
              exact error _
          | some pos =>
              have le := deleteLoop_le m _ _ found
              have total : pos ≤ t.len := by omega
              exact ⟨⟨Mem.only_refl _ m, by simpa using total, by simp⟩, fits_done v total⟩
      | bytes src =>
          by_cases zero : src.length = 0
          · simp only [zero, if_true]
            exact error _
          simp only [zero, if_false]
          have code : 0 < (if info.scratch = 0 then 1 else info.scratch) := by
            split <;> omega
          have short : (if info.scratch = 0 then 1 else info.scratch) < v.maxlen := by
            have := h.short
            split <;> omega
          generalize (if info.scratch = 0 then 1 else info.scratch) = code' at code short ⊢
          by_cases room : t.len - info.done ≤ code'
          · simp only [room, if_true]
            exact error _
          simp only [room, if_false]
          have stop : t.base + info.done + code' + (t.len - info.done - code') =
              t.base + t.len := by omega
          have loop := encodeLoop_inside (v := v) m (t.base + info.done)
            (t.base + info.done + code') code' (t.len - info.done - code') src code short
            (Nat.le_refl _)
          rw [stop] at loop
          have fits := loop.fits
          have total : t.len -
              (encodeLoop v m (t.base + info.done + code') code' (t.len - info.done - code')
                src).left -
              (encodeLoop v m (t.base + info.done + code') code' (t.len - info.done - code')
                src).code +
              (encodeLoop v m (t.base + info.done + code') code' (t.len - info.done - code')
                src).code ≤ t.len := by omega
          exact ⟨⟨loop.mem, total, by simp⟩, total, loop.short⟩

/-- The end of a message for which the tail extension needs a byte that the target
    does not have: the open block fills it and does not end inline. -/
def Spills (c : Codec) (info : EncodeState) (m : Mem Byte) (t : Iovec) (base : Option Data) :
    Prop :=
  c.tail = true ∧ base = none ∧ info.scratch ≠ 0 ∧ t.base ≠ 0 ∧
    info.done + info.scratch = t.len ∧
    ¬ (1 < info.scratch ∧ info.scratch < (m (t.base + info.done + info.scratch - 1)).toNat ∧
      (m (t.base + info.done + info.scratch - 1)).toNat ≤ c.variant.maxlen)

/-- Ending an open block with the tail extension. -/
theorem encodeR_finish {c : Codec} (tail : c.tail = true) {info : EncodeState} {m : Mem Byte}
    {t : Iovec} (h : Fits c.variant info t.len) (opened : info.scratch ≠ 0) :
    (Safe info m t (encodeR c.variant info m (some t) none) ↔ ¬ Spills c info m t none) ∧
      (¬ Spills c info m t none →
        Fits c.variant (encodeR c.variant info m (some t) none).1 t.len) := by
  have used := h.used
  have short := h.short
  simp only [encodeR, opened, if_false]
  by_cases null : t.base = 0
  · have clean : ¬ Spills c info m t none := fun spills => spills.2.2.2.1 null
    rw [if_pos (.inr null)]
    exact ⟨iff_of_true (safe_error h _) clean, fun _ => h⟩
  rw [if_neg (by rintro (large | zero) <;> omega)]
  by_cases inl : 1 < info.scratch ∧
      info.scratch < (m (t.base + info.done + info.scratch - 1)).toNat ∧
      info.scratch ≤ c.variant.maxlen ∧
      (m (t.base + info.done + info.scratch - 1)).toNat ≤ c.variant.maxlen
  · have clean : ¬ Spills c info m t none :=
      fun spills => spills.2.2.2.2.2 ⟨inl.1, inl.2.1, inl.2.2.2⟩
    rw [if_pos inl]
    refine ⟨iff_of_true ⟨?_, by simpa using used, by simp⟩ clean, fun _ => fits_done _ used⟩
    exact (Mem.only_set m (by omega) _).trans (Mem.only_set _ (by omega) _)
  · rw [if_neg inl, if_neg (by omega)]
    by_cases full : info.done + info.scratch = t.len
    · have spills : Spills c info m t none :=
        ⟨tail, rfl, opened, null, full, fun h => inl ⟨h.1, h.2.1, Nat.le_of_lt short, h.2.2⟩⟩
      refine ⟨iff_of_false ?_ (fun clean => clean spills), fun clean => absurd spills clean⟩
      intro safe
      have fits := safe.fits
      simp only at fits
      omega
    · have clean : ¬ Spills c info m t none := fun spills => full spills.2.2.2.2.1
      have total : info.done + (info.scratch + 1) ≤ t.len := by omega
      refine ⟨iff_of_true ⟨?_, by simpa using total, by simp⟩ clean, fun _ => fits_done _ total⟩
      exact (Mem.only_set m (by omega) _).trans (Mem.only_set _ (by omega) _)

/-- A call is safe unless it spills, and keeps the state consistent then. -/
theorem encoder_safe (c : Codec) {info : EncodeState} {m : Mem Byte} {t : Iovec}
    (h : Fits c.variant info t.len) (base : Option Data) :
    (Safe info m t (c.encoder info m (some t) base) ↔ ¬ Spills c info m t base) ∧
      (¬ Spills c info m t base → Fits c.variant (c.encoder info m (some t) base).1 t.len) := by
  obtain ⟨safe, fits⟩ := encode_safe (m := m) h base
  unfold Codec.encoder
  by_cases tail : c.tail = true
  · rw [if_pos tail]
    cases base with
    | none =>
        by_cases zero : info.scratch = 0
        · have clean : ¬ Spills c info m t none := fun spills => spills.2.2.1 zero
          simp only [encodeR, zero, if_true]
          exact ⟨iff_of_true safe clean, fun _ => fits⟩
        · exact encodeR_finish tail h zero
    | some base =>
        have clean : ¬ Spills c info m t (some base) := fun spills => absurd spills.2.1 (by simp)
        exact ⟨iff_of_true safe clean, fun _ => fits⟩
  · rw [if_neg tail]
    have clean : ¬ Spills c info m t base := fun spills => tail spills.1
    exact ⟨iff_of_true safe clean, fun _ => fits⟩

/-- A call; the target has grown by `grow` bytes before it. -/
inductive Call where
  /-- without a target -/
  | reset
  /-- data, the end of a message or a deletion -/
  | encode (base : Option Data) (grow : Nat)

/-- An encoder with its target of `size` bytes. -/
structure Session where
  info : EncodeState
  mem : Mem Byte
  size : Nat

/-- A fresh encoder. -/
def Session.start (m : Mem Byte) (size : Nat) : Session := ⟨.init, m, size⟩

def step (c : Codec) (base : Nat) (s : Session) : Call → Session × Except Error Nat
  | .reset =>
      let (info, mem, ret) := c.encoder s.info s.mem none none
      (⟨info, mem, s.size⟩, ret)
  | .encode data grow =>
      let (info, mem, ret) := c.encoder s.info s.mem (some ⟨base, s.size + grow⟩) data
      (⟨info, mem, s.size + grow⟩, ret)

def machine (c : Codec) (base : Nat) : Machine Session Call (Except Error Nat) where
  step := step c base

/-- What a call does is safe for the target it is given. -/
def Stays (c : Codec) (base : Nat) (s : Session) : Call → Prop
  | .reset => True
  | .encode data grow =>
      Safe s.info s.mem ⟨base, s.size + grow⟩
        (c.encoder s.info s.mem (some ⟨base, s.size + grow⟩) data)

/-- The call does not end a message that fills the target. -/
def Clean (c : Codec) (base : Nat) (s : Session) : Call → Prop
  | .reset => True
  | .encode data grow => ¬ Spills c s.info s.mem ⟨base, s.size + grow⟩ data

theorem reset_init (c : Codec) (base : Nat) (s : Session) :
    (step c base s .reset).1.info = .init := by
  simp only [step, Codec.encoder]
  by_cases tail : c.tail = true
  · rw [if_pos tail]
    rfl
  · rw [if_neg tail]
    rfl

theorem step_fits {c : Codec} {base : Nat} {s : Session} {call : Call}
    (h : Fits c.variant s.info s.size) (clean : Clean c base s call) :
    Fits c.variant (step c base s call).1.info (step c base s call).1.size := by
  cases call with
  | reset =>
      rw [reset_init]
      exact fits_done _ (Nat.zero_le _)
  | encode data grow =>
      exact (encoder_safe c (t := ⟨base, s.size + grow⟩) (h.grow grow) data).2 clean

/-- Every call of a session stays inside the target if and only if no call ends a
    message that fills the target and does not end inline. -/
theorem encoders_stay_inside (c : Codec) (base : Nat) (m : Mem Byte) (size : Nat)
    (calls : List Call) :
    (machine c base).Meets (Clean c base) (.start m size) calls ↔
      (machine c base).Meets (Stays c base) (.start m size) calls := by
  apply Machine.meets_congr (P := fun s : Session => Fits c.variant s.info s.size)
  · intro s call fits
    cases call with
    | reset => exact Iff.rfl
    | encode data grow =>
        exact (encoder_safe c (t := ⟨base, s.size + grow⟩) (fits.grow grow) data).1.symm
  · intro s call fits clean
    exact step_fits fits clean
  · exact fits_done _ (Nat.zero_le _)

/-- A message of one byte on a target of two: COBS/R stores the delimiter behind the
    target and counts it. -/
theorem terminator_behind_target :
    let s := (machine .cobsR 16).after (.start (fun _ => 7) 2) [.encode (some (.bytes [1])) 0]
    let s' := (step .cobsR 16 s (.encode none 0)).1
    s.info.done + s.info.scratch = 2 ∧ s'.size = 2 ∧ s'.info.done = 3 ∧ s.mem 18 = 7 ∧
      s'.mem 18 = 0 ∧ ¬ Stays .cobsR 16 s (.encode none 0) := by
  refine ⟨by decide, by decide, by decide, by decide, by decide, ?_⟩
  intro safe
  exact absurd safe.fits (by decide)

end Mpt.Cobs.Extent
