import Mpt.Array.Private
import Mpt.Convert.EncodeSpec

/-! # Encoding into an array

`mpt_array_push` hands its data to the encoder and detaches the buffer for more
space whenever the encoder asks for it.
-/

namespace Mpt.Heap

/-- `struct encode_array` without its encoder. -/
structure EncodeArray where
  state : EncodeState
  arr : Array

/-- The result of a push that may have consumed data before it failed. -/
def consumedOr (max : Nat) (e : Error) : Except Error Nat :=
  if max = 0 then .error e else .ok max

/-- The loop of `mpt_array_push`: `max` bytes are consumed, `data` is what is left.
    There is no result only if the rounds do not suffice. -/
def pushLoop (env : Env) (enc : Encoder) :
    (rounds : Nat) → World → EncodeState → (p : Nat) → Data → (max : Nat) →
      World × EncodeArray × Option (Except Error Nat)
  | 0, w, state, p, _, _ => (w, ⟨state, some p⟩, none)
  | rounds + 1, w, state, p, data, max =>
      match w.cells p with
      | none => (w.crash, ⟨state, some p⟩, some (.error .badArgument))
      | some b =>
          if b.used < state.done + state.scratch then
            (w, ⟨state, some p⟩, some (.error .badArgument))
          else
            let off := b.used - (state.done + state.scratch)
            let (state, mem, cont) := enc state b.mem (some ⟨b.base + off, b.size - off⟩)
              (if data.len = 0 then none else some data)
            let used := off + (state.done + state.scratch)
            if b.size < used then
              let (state, mem, _) := enc state mem none none
              (w.store p { b with mem := mem }, ⟨state, some p⟩, some (.error .badEncoding))
            else
              let w := w.store p { b with mem := mem, used := used }
              match cont with
              | .error .missingBuffer =>
                  match bufferDetach env w p (b.size + 64) with
                  | (w, none) => (w, ⟨state, some p⟩, some (consumedOr max .missingBuffer))
                  | (w, some p) => pushLoop env enc rounds w state p data max
              | .error e => (w, ⟨state, some p⟩, some (consumedOr max e))
              | .ok cont =>
                  match data with
                  | .null _ => (w, ⟨state, some p⟩, some (.ok (max + cont)))
                  | .bytes src =>
                      if src.length = 0 then
                        (w, ⟨state, some p⟩, some (.ok (max + cont)))
                      else if src.length < cont then
                        let (state, mem, _) := enc state mem none none
                        (w.store p { b with mem := mem, used := used }, ⟨state, some p⟩,
                          some (.error .badEncoding))
                      else if src.length - cont = 0 then
                        (w, ⟨state, some p⟩, some (.ok (max + cont)))
                      else
                        pushLoop env enc rounds w state p (.bytes (src.drop cont)) (max + cont)

/-- The raw data path of `mpt_array_push`. -/
def pushRaw (env : Env) (w : World) (a : EncodeArray) (data : Data) :
    World × EncodeArray × Except Error Nat :=
  if data.len = 0 then
    (w, ⟨⟨a.state.ctx, a.state.done + a.state.scratch, 0⟩, a.arr⟩, .ok 0)
  else
    match data with
    | .null _ => (w, a, .error .missingData)
    | .bytes src =>
        if (a.arr.bind w.cells).any fun b => b.traits.isSome then
          (w, a, .error .badType)
        else
          let max := a.state.done + a.state.scratch
          match arrayInsert env w a.arr max src.length with
          | (w, arr, none) => (w, ⟨a.state, arr⟩, .error .missingBuffer)
          | (w, arr, some _) =>
              match arr.bind fun p => (w.cells p).map (p, ·) with
              | none => (w.crash, ⟨a.state, arr⟩, .error .missingBuffer)
              | some (p, b) =>
                  (poke w p { b with used := max + src.length } max src,
                    ⟨⟨a.state.ctx, a.state.done, a.state.scratch + src.length⟩, arr⟩,
                    .ok src.length)

/-- `mpt_array_push`.  Two rounds for each byte are enough. -/
def arrayPush (env : Env) (enc : Option Encoder) (w : World) (a : EncodeArray) (data : Data) :
    World × EncodeArray × Option (Except Error Nat) :=
  match enc with
  | none =>
      let (w, a, ret) := pushRaw env w a data
      (w, a, some ret)
  | some enc =>
      let max := a.state.done + a.state.scratch
      let add := if 64 < data.len then data.len else 64
      match a.arr with
      | none =>
          if max ≠ 0 then
            (w, a, some (.error .badArgument))
          else
            match bufferAlloc env w add .none with
            | (w, none) => (w, a, some (.error .badOperation))
            | (w, some p) => pushLoop env enc (2 * data.len + 2) w a.state p data 0
      | some p =>
          match w.cells p with
          | none => (w.crash, a, some (.error .badArgument))
          | some b =>
              if b.traits.isSome then
                (w, a, some (.error .badType))
              else
                match bufferDetach env w p (max + add) with
                | (w, none) => (w, a, some (.error .badOperation))
                | (w, some p) => pushLoop env enc (2 * data.len + 2) w a.state p data 0

/-- Memory that was refused stays refused. -/
theorem pushLoop_refused {env : Env} {enc : Encoder} {rounds : Nat} {w : World}
    {state : EncodeState} {p : Nat} {data : Data} {max : Nat}
    (granted : (pushLoop env enc rounds w state p data max).1.refused = false) :
    w.refused = false := by
  induction rounds generalizing w state p data max with
  | zero => exact granted
  | succ rounds ih =>
      unfold pushLoop at granted
      split at granted
      · exact granted
      · rename_i b _
        split at granted
        · exact granted
        · generalize (if data.len = 0 then none else some data) = source at granted
          simp only at granted
          split at granted
          · exact granted
          · split at granted
            · split at granted
              · rename_i detach
                have before := bufferDetach_refused detach
                exact before granted
              · rename_i detach
                have before := bufferDetach_refused detach
                exact before (ih granted)
            · exact granted
            · split at granted
              · exact granted
              · split at granted
                · exact granted
                · split at granted
                  · exact granted
                  · split at granted
                    · exact granted
                    · have before := ih granted
                      exact before

theorem arrayPush_refused {env : Env} {enc : Encoder} {w : World} {a : EncodeArray} {data : Data}
    (granted : (arrayPush env (some enc) w a data).1.refused = false) : w.refused = false := by
  unfold arrayPush at granted
  simp only at granted
  split at granted
  · split at granted
    · exact granted
    · split at granted
      · rename_i alloc
        have before := bufferAlloc_refused alloc
        exact before granted
      · rename_i alloc
        have before := bufferAlloc_refused alloc
        exact before (pushLoop_refused granted)
  · split at granted
    · exact granted
    · split at granted
      · exact granted
      · split at granted
        · rename_i detach
          have before := bufferDetach_refused detach
          exact before granted
        · rename_i detach
          have before := bufferDetach_refused detach
          exact before (pushLoop_refused granted)

open Cobs

/-- The array holds the finished bytes `fin` and the open block `o`. -/
structure Filled (v : Variant) (w : World) (p : Nat) (b : Buffer) (state : EncodeState)
    (fin : List Byte) (o : Option (List Byte)) : Prop where
  here : Private w p b
  used : b.used = state.done + state.scratch
  holds : Holds v state b.mem b.base fin o

variable {env : Env} {v : Variant} {w : World} {p : Nat} {b : Buffer} {state : EncodeState}
  {fin : List Byte} {o : Option (List Byte)}

/-- A detached buffer holds the same. -/
theorem Filled.detach (h : Filled v w p b state fin o) {len : Nat} {w' : World} {q : Nat}
    {b' : Buffer} (d : Detached w' b len q b') : Filled v w' q b' state fin o where
  here := d.here
  used := d.used.trans h.used
  holds := h.holds.transfer (by rw [← h.used]; exact d.mem)

/-- One more allocation step of a buffer that is full. -/
theorem Filled.grow (h : Filled v w p b state fin o) {w' : World} {ret : Option Nat}
    (detach : bufferDetach env w p (b.size + 64) = (w', ret)) (granted : w'.refused = false) :
    w.refused = false ∧ ∃ q b', ret = some q ∧ Filled v w' q b' state fin o ∧
      b'.size = b.size + 128 := by
  have used := h.here.used
  have size := h.here.size
  obtain ⟨before, q, b', rfl, d⟩ := bufferDetach_private h.here (by omega) detach granted
  refine ⟨before, q, b', rfl, h.detach d, ?_⟩
  rw [d.size, if_neg (by omega)]
  unfold roomFor
  omega

/-- The space behind the open block. -/
def Room (b : Buffer) (state : EncodeState) (o : Option (List Byte)) : Prop :=
  state.done + (o.getD []).length + 1 < b.size

/-- Pushing data splits all of it, as long as no block of maximal size ends with the
    buffer at any of its sizes. -/
theorem pushLoop_data (c : Codec) {rounds : Nat} {src : List Byte} {max : Nat}
    (h : Filled c.variant w p b state fin o) (some : src ≠ [])
    (clean : ∀ i, ¬ Overrun c.variant (o.getD []) (b.size + 128 * i - state.done) src)
    (enough : 2 * src.length + 1 ≤ rounds ∨ Room b state o ∧ 2 * src.length ≤ rounds)
    {w' : World} {a : EncodeArray} {ret : Option (Except Error Nat)}
    (run : pushLoop env c.encoder rounds w state p (.bytes src) max = (w', a, ret))
    (granted : w'.refused = false) :
    ret = Option.some (.ok (max + src.length)) ∧ ∃ q b', a.arr = Option.some q ∧
      Filled c.variant w' q b' a.state
        (fin ++ encoded c.variant (split c.variant (o.getD []) src).1)
        (Option.some (split c.variant (o.getD []) src).2) := by
  have positive : 0 < src.length := List.length_pos_iff.mpr some
  induction rounds generalizing w p b state fin o src max with
  | zero => omega
  | succ rounds ih =>
      have target : b.base ≠ 0 := h.here.base
      have used := h.used
      have fits := h.here.used
      rw [pushLoop] at run
      simp only [h.here.cell, used, Nat.lt_irrefl, if_false, Nat.sub_self, Nat.add_zero,
        Nat.sub_zero, Nat.zero_add] at run
      rw [if_neg (show ¬ (Data.bytes src).len = 0 from Nat.ne_of_gt positive)] at run
      rw [encoder_data] at run
      by_cases room : Room b state o
      · -- the encoder takes `p'` and leaves `q'` only to a full buffer
        obtain ⟨p', q', state', taken, call⟩ := encode_data (t := ⟨b.base, b.size⟩) h.holds target
          room some (by simpa using clean 0)
        have stored : Filled c.variant (w.store p { b with
            mem := b.mem.write (b.base + state.done) (stored c.variant (o.getD []) p')
            used := state'.done + state'.scratch }) p _ state' _ _ :=
          ⟨h.here.store rfl rfl rfl rfl rfl taken.fits, rfl, h.holds.write taken⟩
        have read := taken.read
        have first : 0 < p'.length := List.length_pos_iff.mpr taken.some
        have length := congrArg List.length read
        rw [List.length_append] at length
        simp only [call] at run
        rw [if_neg (Nat.not_lt.mpr taken.fits), if_neg (show ¬ src.length = 0 by omega),
          if_neg (show ¬ src.length < p'.length by omega)] at run
        have whole : split c.variant (o.getD []) src = join (split c.variant (o.getD []) p')
            (split c.variant (split c.variant (o.getD []) p').2 q') := by
          rw [read]
          exact taken.apart q' (List.prefix_refl _)
        by_cases last : src.length - p'.length = 0
        · rw [if_pos last] at run
          obtain ⟨rfl, rfl, rfl⟩ := run
          obtain rfl : q' = [] := List.length_eq_zero_iff.mp (by omega)
          rw [List.append_nil] at read
          subst read
          exact ⟨rfl, p, _, rfl, stored⟩
        · rw [if_neg last, read, List.drop_left] at run
          have more : q' ≠ [] := by
            rintro rfl
            simp at length
            omega
          have done := taken.done
          have full := taken.stop.resolve_left more
          have clean' : ∀ i, ¬ Overrun c.variant (split c.variant (o.getD []) p').2
              (b.size + 128 * i - state'.done) q' := by
            intro i excess
            have whole := taken.apart.overrun excess
            refine clean i ?_
            have place : (encoded c.variant (split c.variant (o.getD []) p').1).length +
                (b.size + 128 * i - state'.done) = b.size + 128 * i - state.done := by
              have := taken.fits
              simp only at this
              omega
            rw [place, ← read] at whole
            exact whole
          obtain ⟨rfl, q, b', arr, filled⟩ := ih stored more clean' (.inl (by omega)) run
            (List.length_pos_iff.mpr more)
          refine ⟨by rw [length, Nat.add_assoc], q, b', arr, ?_⟩
          rw [whole]
          simpa [join] using filled
      · have noRoom : b.size ≤ state.done + (o.getD []).length + 1 := Nat.not_lt.mp room
        have rest : 2 * src.length + 1 ≤ rounds + 1 := enough.resolve_right fun h => room h.1
        rw [encode_data_missing (t := ⟨b.base, b.size⟩) h.holds target (by simp only; omega)
          noRoom some] at run
        simp only at run
        rw [if_neg (by omega)] at run
        have stored : Filled c.variant (w.store p { b with used := state.done + state.scratch }) p _
            state fin o :=
          ⟨h.here.store rfl rfl rfl rfl rfl (by simp only; omega), rfl, h.holds⟩
        rcases detach : bufferDetach env (w.store p { b with used := state.done + state.scratch }) p
          (b.size + 64) with ⟨w₁, ret₁⟩
        rw [detach] at run
        have plain : w₁.refused = false := by
          cases ret₁ with
          | none =>
              obtain ⟨rfl, _⟩ := run
              exact granted
          | some q =>
              simp only at run
              have before := congrArg (fun r => r.1.refused) run
              exact pushLoop_refused (before.trans granted)
        obtain ⟨_, q, b', rfl, filled, size⟩ := stored.grow detach plain
        simp only at run size
        have scratch : (o.getD []).length ≤ state.scratch := by
          rw [h.holds.scratch]
          cases o <;> simp [progress]
        refine ih filled some ?_ (.inr ⟨?_, by omega⟩) run positive
        · intro i
          have later := clean (i + 1)
          rw [show b'.size + 128 * i = b.size + 128 * (i + 1) by omega]
          exact later
        · unfold Room
          omega

/-- What the end of a message puts in the place of the open block. -/
def ended (c : Codec) : Option (List Byte) → List Byte
  | none => [1, 0]
  | some o => closed c.variant c.tail o ++ [0]

/-- The end of a message where the space is there.  Without data in the message it
    has to be the first. -/
theorem encode_finish (c : Codec) (h : Filled c.variant w p b state fin o)
    (room : state.done + state.scratch + 2 ≤ b.size) (first : o = none → state.done = 0) :
    c.encoder state b.mem (some ⟨b.base, b.size⟩) none =
      (⟨0, state.done + (ended c o).length, 0⟩, b.mem.write (b.base + state.done) (ended c o),
        .ok 0) := by
  have target : b.base ≠ 0 := h.here.base
  cases o with
  | none =>
      rw [finish_empty (t := ⟨b.base, b.size⟩) c h.holds target (by simp only; omega),
        if_neg (by simp only; omega)]
      simp [ended, first rfl]
  | some o =>
      rw [finish_open (t := ⟨b.base, b.size⟩) c h.holds target (by simp only; omega),
        if_neg (by simp only; omega)]
      rfl

theorem pushLoop_finish (env : Env) (c : Codec) (rounds : Nat) (h : Filled c.variant w p b state fin o)
    (room : state.done + state.scratch + 2 ≤ b.size) (first : o = none → state.done = 0) :
    ∃ w' b', pushLoop env c.encoder (rounds + 1) w state p (.null 0) 0 =
        (w', ⟨⟨0, state.done + (ended c o).length, 0⟩, some p⟩, some (.ok 0)) ∧
      Filled c.variant w' p b' ⟨0, state.done + (ended c o).length, 0⟩ (fin ++ ended c o) none := by
  have used := h.used
  have scratch := h.holds.scratch
  have size : (ended c o).length ≤ state.scratch + 2 := by
    rw [scratch]
    cases o with
    | none => simp [ended]
    | some o =>
        have := length_closed c.variant c.tail o
        simp only [ended, progress, List.length_append, List.length_singleton, length_opened]
        split at this <;> omega
  have call := encode_finish c h room first
  rw [pushLoop]
  simp only [h.here.cell, used, Nat.lt_irrefl, if_false, Nat.sub_self, Nat.add_zero, Nat.sub_zero,
    Nat.zero_add, Data.len, if_true, call]
  rw [if_neg (by omega)]
  refine ⟨_, _, rfl, h.here.store rfl rfl rfl rfl rfl ?_, rfl, h.holds.finish _⟩
  simp only
  omega

/-- An encode array: nothing, or a buffer with the finished bytes and the open block. -/
inductive Contents (v : Variant) (w : World) (a : EncodeArray) (fin : List Byte)
    (o : Option (List Byte)) : Prop where
  | empty (arr : a.arr = none) (state : a.state = .init) (fin_eq : fin = []) (o_eq : o = none)
  | buffer {p : Nat} {b : Buffer} (arr : a.arr = some p) (filled : Filled v w p b a.state fin o)

/-- The size of the buffer at the first call of the encoder. -/
def firstSize (w : World) (a : EncodeArray) (len : Nat) : Nat :=
  let need := a.state.done + a.state.scratch + if 64 < len then len else 64
  match a.arr.bind w.cells with
  | none => roomFor need
  | some b => if need ≤ b.size then b.size else roomFor need

/-- The data of the open block, as it stands in the array. -/
def openData (w : World) (a : EncodeArray) : List Byte :=
  match a.arr.bind w.cells with
  | none => []
  | some b => b.mem.read (b.base + a.state.done + 1) (a.state.scratch - 1)

theorem Contents.openData {a : EncodeArray} (h : Contents v w a fin o) :
    openData w a = o.getD [] := by
  unfold Heap.openData
  cases h with
  | empty arr state fin_eq o_eq => simp [arr, o_eq]
  | buffer arr filled =>
      have data := filled.holds.data
      have scratch := filled.holds.scratch
      simp only [arr, Option.bind_some, filled.here.cell]
      rw [scratch]
      cases o with
      | none => rfl
      | some o => simpa [progress] using data

/-- The buffer with which the encoder starts. -/
theorem first_buffer {a : EncodeArray} {enc : Encoder} (h : Contents v w a fin o) (data : Data)
    {w' : World} {a' : EncodeArray} {ret : Option (Except Error Nat)}
    (run : arrayPush env (some enc) w a data = (w', a', ret)) (granted : w'.refused = false) :
    ∃ w₁ p b, Filled v w₁ p b a.state fin o ∧ b.size = firstSize w a data.len ∧
      pushLoop env enc (2 * data.len + 2) w₁ a.state p data 0 = (w', a', ret) := by
  unfold arrayPush at run
  unfold firstSize
  cases h with
  | empty arr state fin_eq o_eq =>
      subst fin_eq o_eq
      simp only [arr, state, EncodeState.init, Nat.add_zero, ne_eq, not_true_eq_false, if_false]
        at run
      rcases alloc : bufferAlloc env w (if 64 < data.len then data.len else 64) .none with ⟨w₁, r⟩
      rw [alloc] at run
      have plain : w₁.refused = false := by
        cases r with
        | none =>
            obtain ⟨rfl, _⟩ := run
            exact granted
        | some q =>
            have before := congrArg (fun r => r.1.refused) run
            exact pushLoop_refused (before.trans granted)
      obtain ⟨_, rfl, b, here, used, size⟩ := bufferAlloc_granted env w _ alloc plain
      refine ⟨w₁, w.mallocs, b, ⟨here, ?_, ?_⟩, ?_, ?_⟩
      · rw [used, state]
        rfl
      · rw [state]
        exact Holds.init _ _ _
      · simp [arr, state, size, EncodeState.init]
      · rw [state]
        exact run
  | buffer arr filled =>
      rename_i p b
      simp only [arr, filled.here.cell, filled.here.traits, Option.isSome_none, Bool.false_eq_true,
        if_false] at run
      rcases detach : bufferDetach env w p
        (a.state.done + a.state.scratch + if 64 < data.len then data.len else 64) with ⟨w₁, r⟩
      rw [detach] at run
      have plain : w₁.refused = false := by
        cases r with
        | none =>
            obtain ⟨rfl, _⟩ := run
            exact granted
        | some q =>
            have before := congrArg (fun r => r.1.refused) run
            exact pushLoop_refused (before.trans granted)
      obtain ⟨_, q, b', rfl, d⟩ := bufferDetach_private filled.here
        (by rw [filled.used]; omega) detach plain
      refine ⟨w₁, q, b', filled.detach d, ?_, run⟩
      simp only [arr, Option.bind_some, filled.here.cell, d.size]

/-- A push of data splits all of it. -/
theorem arrayPush_data (c : Codec) {a : EncodeArray} (h : Contents c.variant w a fin o)
    {src : List Byte} (some : src ≠ [])
    (clean : ∀ i, ¬ Overrun c.variant (openData w a)
      (firstSize w a src.length + 128 * i - a.state.done) src)
    {w' : World} {a' : EncodeArray} {ret : Option (Except Error Nat)}
    (run : arrayPush env (Option.some c.encoder) w a (.bytes src) = (w', a', ret))
    (granted : w'.refused = false) :
    ret = Option.some (.ok src.length) ∧
      Contents c.variant w' a' (fin ++ encoded c.variant (split c.variant (o.getD []) src).1)
        (Option.some (split c.variant (o.getD []) src).2) := by
  rw [h.openData] at clean
  obtain ⟨w₁, p, b, filled, size, loop⟩ := first_buffer h (.bytes src) run granted
  obtain ⟨rfl, q, b', arr, filled'⟩ := pushLoop_data c filled some
    (by rw [size]; exact clean) (.inl (by simp only [Data.len]; omega)) loop granted
  exact ⟨by rw [Nat.zero_add], .buffer arr filled'⟩

/-- A push without data ends the message. -/
theorem arrayPush_finish (c : Codec) {a : EncodeArray} (h : Contents c.variant w a fin o)
    (first : a.state.scratch ≠ 0 ∨ a.state.done = 0)
    {w' : World} {a' : EncodeArray} {ret : Option (Except Error Nat)}
    (run : arrayPush env (Option.some c.encoder) w a (.null 0) = (w', a', ret))
    (granted : w'.refused = false) :
    ret = some (.ok 0) ∧ Contents c.variant w' a' (fin ++ ended c o) none := by
  obtain ⟨w₁, p, b, filled, size, loop⟩ := first_buffer h (.null 0) run granted
  have room : a.state.done + a.state.scratch + 2 ≤ b.size := by
    rw [size]
    unfold firstSize
    have := le_roomFor (a.state.done + a.state.scratch + 64)
    simp only [Data.len, Nat.not_lt_zero, if_false]
    split
    · omega
    · split <;> omega
  have noData : o = none → a.state.done = 0 := by
    rintro rfl
    exact first.resolve_left fun h => h filled.holds.scratch
  obtain ⟨w₂, b', eq, filled'⟩ :=
    pushLoop_finish env c (2 * 0 + 1) filled room noData
  obtain ⟨rfl, rfl, rfl⟩ : w₂ = w' ∧ _ = a' ∧ _ = ret := by
    simpa only [Prod.mk.injEq] using eq.symm.trans loop
  exact ⟨rfl, .buffer rfl filled'⟩

end Mpt.Heap
