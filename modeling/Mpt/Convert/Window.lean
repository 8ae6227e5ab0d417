import Mpt.Convert.EncodeSpec

/-! # A call of an encoder in any range

What a call does depends on the open block, the data and the room from the start
of the open block, and not on the bytes before it or on where they are.  `Next`
says what a call adds; it has one result at most.
-/

namespace Mpt.Cobs

variable {v : Variant}

/-- Data that is consumed takes space. -/
theorem splitSize_lt {o p : List Byte} (some : p ≠ []) :
    o.length + 1 < splitSize v (split v o p) := by
  fun_induction split v o p with
  | case1 o => exact absurd rfl some
  | case2 o => simp [addBlock, splitSize]
  | case3 o next rest _ _ =>
      have := le_splitSize (v := v) [] rest
      simp only [List.length_nil] at this
      rw [splitSize_add]
      simp only
      omega
  | case4 o next rest _ ih =>
      have := ih (by simp)
      rw [splitSize_add]
      simp only
      omega
  | case5 o c src _ _ _ =>
      have := le_splitSize (v := v) [] src
      simp only [List.length_nil] at this
      rw [splitSize_add]
      simp
      omega
  | case6 o c src _ _ _ =>
      have := le_splitSize (v := v) (o ++ [c]) src
      simp at this
      omega

/-- The part `p` of the data `src` that is consumed with `room` bytes from the start
    of the open block `o`. -/
structure Cut (v : Variant) (room : Nat) (o src p q : List Byte) : Prop where
  read : src = p ++ q
  some : p ≠ []
  fits : splitSize v (split v o p) ≤ room
  stop : q = [] ∨ splitSize v (split v o p) = room
  apart : Apart v o p q

namespace Cut

variable {room : Nat} {o src p q p' q' : List Byte}

theorem all (some : src ≠ []) (fits : splitSize v (split v o src) ≤ room) :
    Cut v room o src src [] := by
  refine ⟨by simp, some, fits, .inl rfl, ?_⟩
  intro r part
  obtain rfl := List.prefix_nil.mp part
  simp [join, split]

theorem more (h : Cut v room o src p []) {room' : Nat} (le : room ≤ room') :
    Cut v room' o src p [] :=
  ⟨h.read, h.some, Nat.le_trans h.fits le, .inl rfl, h.apart⟩

theorem room_lt (h : Cut v room o src p q) : o.length + 1 < room :=
  Nat.lt_of_lt_of_le (splitSize_lt h.some) h.fits

theorem not_longer (h : Cut v room o src p q) (h' : Cut v room o src p' q')
    (part : p <+: p') : p = p' := by
  obtain ⟨r, rfl⟩ := part
  have rest : q = r ++ q' := by
    have := h.read.symm.trans h'.read
    rw [List.append_assoc] at this
    exact List.append_cancel_left this
  by_cases empty : r = []
  · rw [empty, List.append_nil]
  have longer : splitSize v (split v o (p ++ r)) =
      (encoded v (split v o p).1).length + splitSize v (split v (split v o p).2 r) := by
    rw [h.apart r ⟨q', rest.symm⟩, splitSize_join]
  have lt := splitSize_lt (v := v) (o := (split v o p).2) empty
  have fits := h'.fits
  rcases h.stop with none | full
  · rw [none] at rest
    exact absurd (List.append_eq_nil_iff.mp rest.symm).1 empty
  · rw [splitSize, length_opened] at full
    omega

/-- The part consumed is determined. -/
theorem unique (h : Cut v room o src p q) (h' : Cut v room o src p' q') : p = p' := by
  have same : p <+: p ++ q := List.prefix_append p q
  have same' : p' <+: p ++ q := by
    rw [← h.read, h'.read]
    exact List.prefix_append p' q'
  rcases List.prefix_or_prefix_of_prefix same same' with part | part
  · exact h.not_longer h' part
  · exact (h'.not_longer h part).symm

end Cut

theorem Taken.cut {info info' : EncodeState} {len : Nat} {o src p q : List Byte}
    (t : Taken v info info' len o src p q) : Cut v (len - info.done) o src p q := by
  have fits := t.fits
  have stop := t.stop
  rw [t.done, t.scratch] at fits stop
  refine ⟨t.read, t.some, ?_, stop.imp id fun full => ?_, t.apart⟩
  · rw [splitSize, length_opened]
    omega
  · rw [splitSize, length_opened]
    omega

/-- The bytes that end a message, in the place of the open block. -/
def closing (c : Codec) (room : Nat) : Option (List Byte) → Option (List Byte)
  | none => if room < 2 then none else some [1, 0]
  | some o =>
      if c.tail = false ∧ room ≤ o.length + 1 then none
      else some (closed c.variant c.tail o ++ [0])

/-- The arguments of a call: without data the message ends. -/
def source (src : List Byte) : Option Data := if src = [] then none else some (.bytes src)

/-- What a call adds to the finished bytes, and the open block behind them. -/
inductive Next (c : Codec) (room : Nat) (o : Option (List Byte)) :
    List Byte → List Byte → Option (List Byte) → Except Error Nat → Prop where
  | full {src : List Byte} (some : src ≠ []) (noRoom : room ≤ (o.getD []).length + 1) :
      Next c room o src [] o (.error .missingBuffer)
  | data {src p q : List Byte} (cut : Cut c.variant room (o.getD []) src p q) :
      Next c room o src (encoded c.variant (split c.variant (o.getD []) p).1)
        (Option.some (split c.variant (o.getD []) p).2) (.ok p.length)
  | stuck (noRoom : closing c room o = none) : Next c room o [] [] o (.error .missingBuffer)
  | close {out : List Byte} (closes : closing c room o = Option.some out) :
      Next c room o [] out none (.ok 0)

namespace Next

variable {c : Codec} {room : Nat} {o o₁ o₂ : Option (List Byte)} {src add₁ add₂ : List Byte}
  {ret₁ ret₂ : Except Error Nat}

theorem unique (h₁ : Next c room o src add₁ o₁ ret₁) (h₂ : Next c room o src add₂ o₂ ret₂) :
    add₁ = add₂ ∧ o₁ = o₂ ∧ ret₁ = ret₂ := by
  cases h₁ with
  | full some noRoom =>
      cases h₂ with
      | full => exact ⟨rfl, rfl, rfl⟩
      | data cut => exact absurd cut.room_lt (by omega)
      | stuck => exact absurd rfl some
      | close => exact absurd rfl some
  | data cut =>
      cases h₂ with
      | full _ noRoom => exact absurd cut.room_lt (by omega)
      | data cut' =>
          obtain rfl := cut.unique cut'
          exact ⟨rfl, rfl, rfl⟩
      | stuck => exact absurd (List.append_eq_nil_iff.mp cut.read.symm).1 cut.some
      | close => exact absurd (List.append_eq_nil_iff.mp cut.read.symm).1 cut.some
  | stuck noRoom =>
      cases h₂ with
      | full some => exact absurd rfl some
      | data cut => exact absurd (List.append_eq_nil_iff.mp cut.read.symm).1 cut.some
      | stuck => exact ⟨rfl, rfl, rfl⟩
      | close closes => rw [noRoom] at closes; cases closes
  | close closes =>
      cases h₂ with
      | full some => exact absurd rfl some
      | data cut => exact absurd (List.append_eq_nil_iff.mp cut.read.symm).1 cut.some
      | stuck noRoom => rw [noRoom] at closes; cases closes
      | close closes' =>
          obtain rfl := Option.some.inj (closes.symm.trans closes')
          exact ⟨rfl, rfl, rfl⟩

/-- What does not fit leaves everything as it was. -/
theorem error {e : Error} (h : Next c room o src add₁ o₁ (.error e)) :
    add₁ = [] ∧ o₁ = o ∧ e = .missingBuffer := by
  cases h with
  | full => exact ⟨rfl, rfl, rfl⟩
  | stuck => exact ⟨rfl, rfl, rfl⟩

end Next

theorem closing_more {c : Codec} {room room' : Nat} {o : Option (List Byte)} {out : List Byte}
    (closes : closing c room o = some out) (le : room ≤ room') : closing c room' o = some out := by
  unfold closing at closes ⊢
  cases o with
  | none =>
      simp only at closes ⊢
      split at closes
      · cases closes
      · rw [if_neg (by omega)]
        exact closes
  | some o =>
      simp only at closes ⊢
      split at closes
      · cases closes
      · rename_i room_lt
        rw [if_neg (fun h => room_lt ⟨h.1, by omega⟩)]
        exact closes

/-- What the encoder itself needs: no block of maximal size ends with the room, no
    message without data ends behind finished bytes, and the delimiter of COBS/R has a
    place. -/
def Regular (c : Codec) (done room : Nat) (o : Option (List Byte)) (src : List Byte) : Prop :=
  if src = [] then
    match o with
    | none => done = 0 ∨ room < 2
    | some o => c.tail = true → Inline c.variant o ∨ o.length + 1 < room
  else
    ¬ Overrun c.variant (o.getD []) room src

/-- Nothing can be stored in the room. -/
def Full (c : Codec) (room : Nat) (o : Option (List Byte)) (src : List Byte) : Prop :=
  if src = [] then closing c room o = none else room ≤ (o.getD []).length + 1

/-- Without room a call changes nothing, whatever is in the range. -/
theorem encoder_full (c : Codec) {info : EncodeState} (m : Mem Byte) {base len : Nat}
    {o : Option (List Byte)} (short : Short c.variant (o.getD []))
    (scratch : info.scratch = (progress o).length) (target : base ≠ 0)
    (fits : info.done + info.scratch ≤ len) {src : List Byte}
    (full : Full c (len - info.done) o src) :
    c.encoder info m (some ⟨base, len⟩) (source src) = (info, m, .error .missingBuffer) := by
  have size := short.size
  have high := c.variant.maxlen_le
  unfold Full at full
  by_cases finish : src = []
  · subst finish
    simp only [source, if_true] at full ⊢
    cases o with
    | none =>
        have zero : info.scratch = 0 := scratch
        have room : len - info.done < 2 := by
          by_contra room
          rw [closing, if_neg room] at full
          cases full
        have regular : encode c.variant info m (some ⟨base, len⟩) none =
            (info, m, .error .missingBuffer) := by
          simp only [encode, target, if_false, zero, Nat.zero_mod]
          rw [if_neg (by omega), if_pos trivial, if_pos room]
          split <;> rfl
        unfold Codec.encoder
        split
        · simp only [encodeR, zero, if_true]
          exact regular
        · exact regular
    | some o =>
        have code : info.scratch = o.length + 1 := by simp [scratch, progress]
        simp only [Option.getD_some] at size
        have noRoom : c.tail = false ∧ len - info.done ≤ o.length + 1 := by
          by_contra room
          rw [closing, if_neg room] at full
          cases full
        simp only [Codec.encoder, noRoom.1, Bool.false_eq_true, if_false, encode, target]
        rw [if_neg (by omega), if_pos (by omega)]
  · simp only [finish, if_false] at full
    have filled : src.length ≠ 0 := by simpa using finish
    have code : (if info.scratch % 256 = 0 then 1 else info.scratch % 256) =
        (o.getD []).length + 1 := by
      cases o with
      | none =>
          have zero : info.scratch = 0 := scratch
          simp [zero]
      | some o =>
          have code : info.scratch = o.length + 1 := by simp [scratch, progress]
          simp only [Option.getD_some] at size ⊢
          rw [Nat.mod_eq_of_lt (by omega), if_neg (by omega), code]
    have low : info.scratch % 256 ≤ info.scratch := Nat.mod_le _ _
    simp only [source, finish, if_false, encoder_data, encode, target, code]
    rw [if_neg (by omega), if_neg filled, if_pos (by omega)]

theorem Full.next {c : Codec} {room : Nat} {o : Option (List Byte)} {src : List Byte}
    (full : Full c room o src) : Next c room o src [] o (.error .missingBuffer) := by
  unfold Full at full
  split at full
  · rename_i finish
    rw [finish]
    exact .stuck full
  · rename_i some
    exact .full some full

/-- A call of an encoder in the range `len` at `base`. -/
theorem encoder_next (c : Codec) {info : EncodeState} {m : Mem Byte} {base len : Nat}
    {fin : List Byte} {o : Option (List Byte)} (h : Holds c.variant info m base fin o)
    (target : base ≠ 0) (fits : info.done + info.scratch ≤ len) {src : List Byte}
    (regular : Regular c info.done (len - info.done) o src) :
    ∃ add o' info' m' ret,
      c.encoder info m (some ⟨base, len⟩) (source src) = (info', m', ret) ∧
      Next c (len - info.done) o src add o' ret ∧ Holds c.variant info' m' base (fin ++ add) o' ∧
      info'.done + info'.scratch ≤ len ∧
      (∀ a, a < base + info.done ∨ base + len ≤ a → m' a = m a) ∧
      ∀ e, ret = .error e → info' = info ∧ m' = m := by
  have outside : ∀ out : List Byte, info.done + out.length ≤ len →
      ∀ a, a < base + info.done ∨ base + len ≤ a → m.write (base + info.done) out a = m a := by
    intro out size a other
    exact Mem.write_outside m out (other.imp_right fun h => by omega)
  by_cases finish : src = []
  · subst finish
    simp only [Regular, if_true] at regular
    simp only [source, if_true]
    cases o with
    | none =>
        have call := finish_empty c (t := ⟨base, len⟩) h target (by simp only; omega)
        by_cases noRoom : len < info.done + 2
        · rw [call, if_pos noRoom]
          refine ⟨[], none, info, m, _, rfl, .stuck ?_, by simpa using h, fits, fun _ _ => rfl,
            fun _ _ => ⟨rfl, rfl⟩⟩
          rw [closing, if_pos (by omega)]
        · rw [call, if_neg noRoom]
          have zero : info.done = 0 := regular.resolve_right (by omega)
          have next := h.finish [1, 0]
          have size : info.done + ([1, 0] : List Byte).length ≤ len := by simp; omega
          simp only [zero, List.length_cons, List.length_nil, Nat.zero_add] at next
          refine ⟨[1, 0], none, _, _, _, rfl, .close ?_, by simpa [zero] using next, ?_,
            outside _ size, by simp⟩
          · rw [closing, if_neg (by omega)]
          · simp only
            omega
    | some o =>
        have call := finish_open c (t := ⟨base, len⟩) h target fits
        have scratch : info.scratch = o.length + 1 := by simp [h.scratch, progress]
        simp only at regular call
        by_cases noRoom : c.tail = false ∧ len ≤ info.done + info.scratch
        · rw [call, if_pos noRoom]
          refine ⟨[], some o, info, m, _, rfl, .stuck ?_, by simpa using h, fits, fun _ _ => rfl,
            fun _ _ => ⟨rfl, rfl⟩⟩
          rw [closing, if_pos ⟨noRoom.1, by omega⟩]
        · rw [call, if_neg noRoom]
          have next := h.finish (closed c.variant c.tail o ++ [0])
          have size : info.done + (closed c.variant c.tail o ++ [0]).length ≤ len := by
            rw [List.length_append, length_closed, List.length_singleton]
            split
            · omega
            · rename_i plain
              cases isTail : c.tail with
              | false =>
                  simp only [isTail, true_and] at noRoom
                  omega
              | true =>
                  have := (regular isTail).resolve_left fun inl => plain ⟨isTail, inl⟩
                  omega
          refine ⟨_, none, _, _, _, rfl, .close ?_, next, ?_, outside _ size, by simp⟩
          · rw [closing, if_neg (fun full => noRoom ⟨full.1, by omega⟩)]
          · simp only
            omega
  · simp only [Regular, finish, if_false] at regular
    simp only [source, finish, if_false, encoder_data]
    by_cases room : info.done + (o.getD []).length + 1 < len
    · obtain ⟨p, q, info', taken, call⟩ :=
        encode_data (t := ⟨base, len⟩) h target room finish regular
      rw [call]
      have size : info.done + (stored c.variant (o.getD []) p).length ≤ len := by
        have := taken.fits
        have done := taken.done
        have scratch := taken.scratch
        rw [length_stored]
        simp only at this
        omega
      exact ⟨_, _, _, _, _, rfl, .data taken.cut, h.write taken, taken.fits, outside _ size,
        by simp⟩
    · rw [encode_data_missing (t := ⟨base, len⟩) h target fits (by simp only; omega) finish]
      exact ⟨[], o, info, m, _, rfl, .full finish (by omega), by simpa using h, fits,
        fun _ _ => rfl, fun _ _ => ⟨rfl, rfl⟩⟩

end Mpt.Cobs
