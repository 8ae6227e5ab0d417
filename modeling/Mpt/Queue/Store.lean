import Mpt.Queue.Recv

/-! # What a queue operation stores

An append replaces some cells of the storage, and which ones, by what and with which
answer does not depend on the bytes stored before.
-/

namespace Mpt

/-- Writing that replaces some cells and leaves all others. -/
def Mask (W : Mem Byte → Mem Byte) : Prop :=
  ∀ a, (∀ m, W m a = m a) ∨ ∃ b, ∀ m, W m a = b

theorem mask_write (a : Nat) (l : List Byte) : Mask fun m => m.write a l := by
  intro i
  by_cases inside : a ≤ i ∧ i < a + l.length
  · obtain ⟨k, rfl⟩ : ∃ k, i = a + k := ⟨i - a, by omega⟩
    have within : k < l.length := by omega
    exact .inr ⟨_, fun m => Mem.write_inside m a l within⟩
  · exact .inl fun m => Mem.write_outside m l (by omega)

theorem Mask.comp {W W' : Mem Byte → Mem Byte} (h : Mask W) (h' : Mask W') :
    Mask fun m => W' (W m) := by
  intro a
  rcases h' a with same | ⟨b, const⟩
  · rcases h a with same' | ⟨b, const'⟩
    · exact .inl fun m => (same (W m)).trans (same' m)
    · exact .inr ⟨b, fun m => (same (W m)).trans (const' m)⟩
  · exact .inr ⟨b, fun m => const (W m)⟩

/-- A cell that is left can be set before or after. -/
theorem Mask.set {W : Mem Byte → Mem Byte} (h : Mask W) {a : Nat} (same : ∀ m, W m a = m a)
    (m : Mem Byte) (x : Byte) : W (m.set a x) = (W m).set a x := by
  funext b
  by_cases here : b = a
  · subst here
    rw [same, Mem.set_self, Mem.set_self]
  · rw [Mem.set_ne _ _ here]
    rcases h b with left | ⟨y, const⟩
    · rw [left, left, Mem.set_ne _ _ here]
    · rw [const, const]

theorem Mask.id : Mask fun m => m := fun _ => .inl fun _ => rfl

namespace Queue

variable {q : Queue}

theorem segment_mem (m : Mem Byte) (pos : Nat) :
    ({ q with mem := m } : Queue).segment pos =
      (q.segment pos).map fun r => ({ r.1 with mem := m }, r.2) := by
  unfold segment
  by_cases zero : pos = 0
  · rw [if_pos zero, if_pos zero]
    rfl
  rw [if_neg zero, if_neg zero]
  have start : ({ q with mem := m } : Queue).crop 0 pos =
      (q.crop 0 pos).map fun r => ({ r.1 with mem := m }, r.2) := by
    simp only [crop, data, if_true]
    split_ifs <;> rfl
  rw [start]
  cases q.crop 0 pos with
  | error e => rfl
  | ok r => rfl

theorem setRange_mem (pos : Nat) (src : Data) :
    ∃ (W : Mem Byte → Mem Byte) (ret : Except Error Nat), Mask W ∧
      ∀ m, ({ q with mem := m } : Queue).setRange pos src =
        ret.map fun k => ({ q with mem := W m }, k) := by
  unfold setRange
  by_cases nothing : src.len = 0
  · refine ⟨fun m => m, .ok 0, .id, fun m => ?_⟩
    rw [if_pos nothing]
    rfl
  cases look : q.segment pos with
  | error e =>
      refine ⟨fun m => m, .error e, .id, fun m => ?_⟩
      rw [if_neg nothing, segment_mem, look]
      rfl
  | ok r =>
      obtain ⟨tmp, ret⟩ := r
      by_cases less : tmp.len < src.len
      · refine ⟨fun m => m, .error .missingBuffer, .id, fun m => ?_⟩
        rw [if_neg nothing, segment_mem, look]
        exact if_pos less
      · let part := ({ tmp with len := src.len } : Queue).data
        refine ⟨fun m => (m.write part.1 (src.content.take part.2)).write q.base
            (src.content.drop part.2), .ok (if src.len - part.2 ≠ 0 then ret + 2 else ret),
          (mask_write _ _).comp (mask_write _ _), fun m => ?_⟩
        rw [if_neg nothing, segment_mem, look]
        exact if_neg less

theorem post_mem (q : Queue) (n : Nat) :
    ∃ ret : Except Error (Nat × Nat), ∀ m, ({ q with mem := m } : Queue).post n =
      ret.map fun r => ({ q with mem := m, len := r.1 }, r.2) := by
  cases space : q.empty with
  | none =>
      refine ⟨.error .missingBuffer, fun m => ?_⟩
      have same : ({ q with mem := m } : Queue).empty = none := space
      simp only [post, same]
      rfl
  | some r =>
      obtain ⟨start, low, high⟩ := r
      have same : ∀ m, ({ q with mem := m } : Queue).empty = some (start, low, high) :=
        fun _ => space
      by_cases less : low + high < n
      · refine ⟨.error .missingBuffer, fun m => ?_⟩
        simp only [post, same m, if_pos less]
        rfl
      · refine ⟨.ok (q.len + n, (low + high - n) / n), fun m => ?_⟩
        simp only [post, same m, if_neg less]
        rfl

/-- What an append stores and answers does not depend on the bytes stored before. -/
theorem push_mem (q : Queue) (src : Data) :
    ∃ (W : Mem Byte → Mem Byte) (len : Nat) (ret : Except Error Nat), Mask W ∧
      ∀ m, ({ q with mem := m } : Queue).push src = ({ q with mem := W m, len := len }, ret) := by
  obtain ⟨extended, post⟩ := post_mem q src.len
  cases extended with
  | error e =>
      refine ⟨fun m => m, q.len, .error e, .id, fun m => ?_⟩
      unfold push
      rw [post]
      rfl
  | ok r =>
      obtain ⟨len, left⟩ := r
      obtain ⟨W, stored, mask, set⟩ :=
        setRange_mem (q := { q with len := len }) (len - src.len) src
      cases stored with
      | error e =>
          refine ⟨fun m => m, len, .error e, .id, fun m => ?_⟩
          unfold push
          rw [post]
          have fails := set m
          simp only [Except.map] at fails ⊢
          rw [fails]
      | ok ret =>
          refine ⟨W, len, .ok ret, mask, fun m => ?_⟩
          unfold push
          rw [post]
          have stores := set m
          simp only [Except.map] at stores ⊢
          rw [stores]

/-- Reserving all free space in front of the content leaves it where it is. -/
theorem pre_ring {off : Nat}
    (place : off + (q.max - q.len) = q.off ∨ off + (q.max - q.len) = q.off + q.max) :
    ({ q with off := off, len := q.len + (q.max - q.len) } : Queue).ring.drop (q.max - q.len) =
      q.ring := by
  apply List.ext_getElem
  · simp
  · intro i hi hi'
    simp only [ring, List.getElem_drop, List.getElem_map, List.getElem_range, ← Nat.add_assoc]
    rcases place with eq | eq
    · rw [eq]
    · rw [eq, Nat.add_right_comm, Nat.add_mod_right]

/-- An append adds bytes behind the content and leaves its cells. -/
theorem push_kept (v : q.Valid) (src : Data) (some : 0 < src.len) :
    ∃ (W : Mem Byte → Mem Byte) (k : Nat) (ret : Except Error Nat), Mask W ∧
      (∀ a ∈ q.ring, ∀ m, W m a = m a) ∧ q.len + k ≤ q.max ∧
      ∀ m, ({ q with mem := m } : Queue).push src =
        ({ q with mem := W m, len := q.len + k }, ret) := by
  obtain ⟨W, len, ret, mask, push⟩ := q.push_mem src
  have cells : ∀ m, len = q.len + (len - q.len) ∧ len ≤ q.max ∧ ∀ a ∈ q.ring, W m a = m a := by
    intro m
    have v' : ({ q with mem := m } : Queue).Valid := ⟨v.off_le, v.len_le⟩
    have stored := push m
    rcases Queue.push_spec v' src some with ⟨fits, m', ret', eq, content⟩ | ⟨_, eq⟩
    · rw [eq] at stored
      simp only [Prod.mk.injEq, Queue.mk.injEq, true_and, and_true] at stored
      obtain ⟨⟨rfl, rfl⟩, _⟩ := stored
      rw [← Queue.map_ring, ← Queue.map_ring, Queue.ring_grow, List.map_append] at content
      obtain ⟨before, _⟩ := List.append_inj content (by simp [Queue.ring])
      exact ⟨(Nat.add_sub_cancel_left _ _).symm ▸ rfl, fits, List.map_inj_left.mp before⟩
    · rw [eq] at stored
      simp only [Prod.mk.injEq, Queue.mk.injEq, true_and, and_true] at stored
      obtain ⟨⟨same, rfl⟩, _⟩ := stored
      exact ⟨by omega, v.len_le, fun a _ => by rw [← same]⟩
  refine ⟨W, len - q.len, ret, mask, fun a inside m => (cells m).2.2 a inside, ?_, fun m => ?_⟩
  · rw [← (cells q.mem).1]
    exact (cells q.mem).2.1
  · rw [← (cells q.mem).1]
    exact push m

theorem push_valid (v : q.Valid) (src : Data) (some : 0 < src.len) :
    (q.push src).1.Valid := by
  obtain ⟨W, k, ret, _, _, fits, push⟩ := push_kept v src some
  have stored : q.push src = _ := push q.mem
  rw [stored]
  exact ⟨v.off_le, fits⟩

end Queue

end Mpt
