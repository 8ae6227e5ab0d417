import Mpt.Misc.Identifier

/-! # What identifiers keep

Each identifier keeps what was assigned last, and every block that exists belongs to
one of them.
-/

namespace Mpt.Ident

/-- What an identifier is for: bytes and how they are to be read. -/
structure Content where
  charset : Nat
  bytes : List Byte
  deriving DecidableEq

/-- What `mpt_identifier_set` is to store. -/
def content (name : Option (List Byte)) (len : Int) : Content :=
  match name with
  | none => ⟨0, List.replicate len.toNat 0⟩
  | some s => ⟨1, (if len < 0 then s.takeWhile fun b => b ≠ 0 else s.take len.toNat) ++ [0]⟩

/-- A name has the bytes of its length, or an end. -/
def Readable (name : Option (List Byte)) (len : Int) : Prop :=
  ∀ s ∈ name, if len < 0 then 0 ∈ s else len.toNat ≤ s.length

/-- An identifier with its content. -/
structure Good (h : Heap) (id : Identifier) (c : Content) : Prop where
  size : 12 ≤ id.max
  len : id.len = c.bytes.length
  charset : id.charset = c.charset
  inline_ : id.external = false → id.val.read 0 id.len = c.bytes
  block : id.external = true → h.blocks id.base = some c.bytes ∧ id.base ≠ 0
  kind : c.charset = 0 ∨ c.charset = 1 ∧ ∃ s, c.bytes = s ++ [0]

/-- All identifiers have their content, and every block is the one of an identifier. -/
structure Holds (w : World) (want : Nat → Content) : Prop where
  good : ∀ i, Good w.heap (w.ids i) (want i)
  apart : ∀ i j, (w.ids i).external = true → (w.ids j).external = true →
    (w.ids i).base = (w.ids j).base → i = j
  owned : ∀ p, (w.heap.blocks p).isSome → ∃ i, (w.ids i).external = true ∧ (w.ids i).base = p
  fault : w.heap.fault = false

/-- New content for one identifier: its old block is gone, and a new one may be there. -/
structure Replaced (h : Heap) (id : Identifier) (h' : Heap) (id' : Identifier) (c : Content) :
    Prop where
  good : Good h' id' c
  fault : h'.fault = false
  blocks : ∀ p, h'.blocks p =
    if id'.external = true ∧ p = id'.base then some c.bytes
    else if id.external = true ∧ p = id.base then none
    else h.blocks p
  fresh : id'.external = true → h.blocks id'.base = none

theorem pointerOf_bytes (p n : Nat) : pointerOf (pointerBytes p n) = p % 256 ^ n := by
  induction n generalizing p with
  | zero => rw [pointerBytes, pointerOf, Nat.pow_zero, Nat.mod_one]
  | succ n ih =>
      have low : (UInt8.ofNat p).toNat = p % 256 := by simp
      rw [pointerBytes, pointerOf, ih, low, Nat.pow_succ', Nat.mod_mul]

theorem length_pointerBytes (p n : Nat) : (pointerBytes p n).length = n := by
  induction n generalizing p with
  | zero => rfl
  | succ n ih => rw [pointerBytes, List.length_cons, ih]

theorem base_setBase (id : Identifier) {p : Nat} (small : p < 2 ^ 64) : (id.setBase p).base = p := by
  have bytes : (id.val.write 4 (pointerBytes p 8)).read 4 8 = pointerBytes p 8 := by
    have whole := Mem.read_write_self id.val 4 (pointerBytes p 8)
    rw [length_pointerBytes] at whole
    exact whole
  unfold Identifier.base Identifier.setBase
  rw [bytes, pointerOf_bytes]
  exact Nat.mod_eq_of_lt small

variable {h h' : Heap} {id id' from_ : Identifier} {c c' : Content} {w : World} {want : Nat → Content}

theorem Good.data (good : Good h id c) : h.data id = c.bytes := by
  unfold Heap.data
  cases ext : id.external with
  | false => simpa using good.inline_ ext
  | true =>
      rw [if_pos rfl, (good.block ext).1, Option.getD_some, good.len]
      exact List.take_length

/-- Other blocks do not matter. -/
theorem Good.congr (good : Good h id c)
    (same : id.external = true → h'.blocks id.base = h.blocks id.base) : Good h' id c := by
  refine ⟨good.size, good.len, good.charset, good.inline_, fun ext => ?_, good.kind⟩
  rw [same ext]
  exact good.block ext

theorem Heap.free_blocks {p : Nat} {l : List Byte} (block : h.blocks p = some l) (ne : p ≠ 0) :
    (h.free p).fault = h.fault ∧ ∀ q, (h.free p).blocks q = if q = p then none else h.blocks q := by
  unfold Heap.free
  rw [if_neg ne, block]
  exact ⟨rfl, fun _ => rfl⟩

/-- One identifier of many is replaced. -/
theorem Holds.put (holds : Holds w want) {i : Nat} (r : Replaced w.heap (w.ids i) h' id' c) :
    Holds ⟨h', fun j => if j = i then id' else w.ids j⟩ fun j => if j = i then c else want j := by
  have other : ∀ j, j ≠ i → (w.ids j).external = true →
      h'.blocks (w.ids j).base = w.heap.blocks (w.ids j).base := by
    intro j ne ext
    rw [r.blocks, if_neg, if_neg]
    · rintro ⟨ext', same⟩
      exact ne (holds.apart j i ext ext' same)
    · rintro ⟨ext', same⟩
      have absent := r.fresh ext'
      rw [← same, ((holds.good j).block ext).1] at absent
      cases absent
  refine ⟨fun j => ?_, fun j k => ?_, fun p some => ?_, r.fault⟩
  · by_cases here : j = i
    · simp only [if_pos here]
      exact r.good
    · simp only [if_neg here]
      exact (holds.good j).congr (other j here)
  · intro ext ext' same
    have foreign : ∀ j, j ≠ i → (w.ids j).external = true → id'.external = true →
        (w.ids j).base ≠ id'.base := by
      intro j ne ext ext' same
      have absent := r.fresh ext'
      rw [← same, ((holds.good j).block ext).1] at absent
      cases absent
    by_cases hj : j = i <;> by_cases hk : k = i
    · rw [hj, hk]
    · simp only [if_pos hj] at ext same
      simp only [if_neg hk] at ext' same
      exact absurd same.symm (foreign k hk ext' ext)
    · simp only [if_neg hj] at ext same
      simp only [if_pos hk] at ext' same
      exact absurd same (foreign j hj ext ext')
    · simp only [if_neg hj] at ext same
      simp only [if_neg hk] at ext' same
      exact holds.apart j k ext ext' same
  · rw [r.blocks] at some
    split at some
    · next new =>
      exact ⟨i, by simp only [if_true]; exact ⟨new.1, new.2.symm⟩⟩
    · split at some
      · cases some
      · next gone =>
        obtain ⟨j, ext, base⟩ := holds.owned p some
        by_cases here : j = i
        · subst here
          exact absurd ⟨ext, base.symm⟩ gone
        · exact ⟨j, by simp only [if_neg here]; exact ⟨ext, base⟩⟩

/-- The old block is freed, if there is one. -/
theorem Good.release (good : Good h id c) (fault : h.fault = false)
    (freed : h' = if id.external = true ∧ id.base ≠ 0 then h.free id.base else h) :
    h'.fault = false ∧
      ∀ q, h'.blocks q = if id.external = true ∧ q = id.base then none else h.blocks q := by
  by_cases ext : id.external = true
  · obtain ⟨block, ne⟩ := good.block ext
    obtain ⟨same, blocks⟩ := Heap.free_blocks block ne
    rw [if_pos ⟨ext, ne⟩] at freed
    rw [freed]
    exact ⟨same.trans fault, fun q => by rw [blocks]; simp [ext]⟩
  · rw [if_neg fun both => ext both.1] at freed
    rw [freed]
    exact ⟨fault, fun q => by simp [ext]⟩

/-- A new block takes the place of the old one. -/
theorem Good.renew (good : Good h id c) (fault : h.fault = false) {addr : Nat}
    (fresh : h.blocks addr = none) (l : List Byte)
    (freed : h' = if id.external = true ∧ id.base ≠ 0 then (h.alloc addr l).free id.base
      else h.alloc addr l) :
    h'.fault = false ∧ ∀ q, h'.blocks q =
      if q = addr then some l
      else if id.external = true ∧ q = id.base then none
      else h.blocks q := by
  have alloc : ∀ q, (h.alloc addr l).blocks q = if q = addr then some l else h.blocks q :=
    fun _ => rfl
  have apart : id.external = true → id.base ≠ addr := by
    rintro ext rfl
    rw [(good.block ext).1] at fresh
    cases fresh
  have good₁ : Good (h.alloc addr l) id c := good.congr fun ext => by
    rw [alloc, if_neg (apart ext)]
  obtain ⟨fault', blocks⟩ := good₁.release fault freed
  refine ⟨fault', fun q => ?_⟩
  rw [blocks, alloc]
  by_cases here : q = addr
  · rw [if_neg fun both => apart both.1 (both.2.symm.trans here), if_pos here, if_pos here]
  · rw [if_neg here, if_neg here]

/-- The bytes are in the inline area, and the old block is gone. -/
theorem replaced_inline (good : Good h id c) (size : id'.max = id.max) (len : id'.len = c'.bytes.length)
    (fits : c'.bytes.length ≤ id.max) (charset : id'.charset = c'.charset)
    (bytes : id'.val.read 0 id'.len = c'.bytes)
    (kind : c'.charset = 0 ∨ c'.charset = 1 ∧ ∃ s, c'.bytes = s ++ [0]) (fault : h'.fault = false)
    (blocks : ∀ q, h'.blocks q = if id.external = true ∧ q = id.base then none else h.blocks q) :
    Replaced h id h' id' c' := by
  have here : id'.external = false := by
    unfold Identifier.external
    rw [size, len]
    exact decide_eq_false (Nat.not_lt.mpr fits)
  refine ⟨⟨?_, len, charset, fun _ => bytes, fun ext => ?_, kind⟩, fault, fun p => ?_, fun ext => ?_⟩
  · rw [size]
    exact good.size
  · rw [here] at ext
    cases ext
  · rw [blocks, here]
    simp
  · rw [here] at ext
    cases ext

/-- The bytes are in a new block, and the old block is gone. -/
theorem replaced_external (good : Good h id c) (size : id'.max = id.max)
    (len : id'.len = c'.bytes.length) (large : id.max < c'.bytes.length)
    (charset : id'.charset = c'.charset) {addr : Nat} (base : id'.base = addr) (valid : addr ≠ 0)
    (fresh : h.blocks addr = none)
    (kind : c'.charset = 0 ∨ c'.charset = 1 ∧ ∃ s, c'.bytes = s ++ [0]) (fault : h'.fault = false)
    (blocks : ∀ q, h'.blocks q = if q = addr then some c'.bytes
      else if id.external = true ∧ q = id.base then none else h.blocks q) :
    Replaced h id h' id' c' := by
  have there : id'.external = true := by
    unfold Identifier.external
    rw [size, len]
    exact decide_eq_true large
  refine ⟨⟨?_, len, charset, fun ext => ?_, fun _ => ⟨?_, ?_⟩, kind⟩, fault, fun p => ?_, fun _ => ?_⟩
  · rw [size]
    exact good.size
  · rw [there] at ext
    cases ext
  · rw [base, blocks, if_pos rfl]
  · rw [base]
    exact valid
  · rw [blocks, there, base]
    simp
  · rw [base]
    exact fresh

/-- What `malloc` returns. -/
def Fresh (h : Heap) (addr : Nat) : Prop := addr ≠ 0 → h.blocks addr = none ∧ addr < 2 ^ 64

/-- The condition for `mpt_identifier_set`: a null name without length, or one that does not
    fit into the inline area. -/
def SetMeets (id : Identifier) (name : Option (List Byte)) (len : Int) : Prop :=
  name = none → len ≤ 0 ∨ (id.max : Int) < len

/-- The content in a new block. -/
def outside (h : Heap) (id : Identifier) (c : Content) (addr : Nat) : Heap × Identifier × Bool :=
  (if id.external = true ∧ id.base ≠ 0 then (h.alloc addr c.bytes).free id.base
    else h.alloc addr c.bytes,
    { ({ id with
        val := id.val.write 0 (List.replicate id.max 0)
        len := c.bytes.length } : Identifier).setBase addr with charset := c.charset }, true)

/-- The content in the inline area. -/
def inside (h : Heap) (id : Identifier) (c : Content) (val : Mem Byte) : Heap × Identifier × Bool :=
  (if id.external = true ∧ id.base ≠ 0 then h.free id.base else h,
    { id with val := val, len := c.bytes.length, charset := c.charset }, true)

theorem identifierSet_null (h : Heap) (id : Identifier) (n addr : Nat) :
    identifierSet h id none n addr =
      if 65535 < n then (h, id, false)
      else if id.max < n then
        if addr = 0 then (h, id, false) else outside h id ⟨0, List.replicate n 0⟩ addr
      else if n ≠ 0 then (h.crash, id, false)
      else inside h id ⟨0, []⟩ (id.val.write 0 (List.replicate id.max 0)) := by
  have range : ((n : Int) < 0 ∨ 65535 < (n : Int)) ↔ 65535 < n := by omega
  have size : ((id.max : Int) < n) ↔ id.max < n := by omega
  have zero : (n : Int) ≠ 0 ↔ n ≠ 0 := by omega
  unfold identifierSet outside inside
  simp only [Option.isSome_none, Bool.false_eq_true, if_false, range, size, zero, Int.toNat_natCast]
  by_cases bad : 65535 < n
  · simp only [if_pos bad]
  · simp only [if_neg bad]
    by_cases large : id.max < n
    · simp only [if_pos large, List.length_replicate]
    · simp only [if_neg large]
      by_cases empty : n = 0
      · simp only [empty, ne_eq, not_true_eq_false, if_false]
        cases ext : id.external <;> simp
      · simp only [ne_eq, empty, not_false_eq_true, if_true]

/-- The number of bytes of a name. -/
def nameLen (s : List Byte) (len : Int) : Nat := if len < 0 then strlen s else len.toNat

theorem identifierSet_name (h : Heap) (id : Identifier) {s : List Byte} {len : Int}
    (readable : nameLen s len ≤ s.length) (addr : Nat) :
    identifierSet h id (some s) len addr =
      if 65535 < nameLen s len + 1 then (h, id, false)
      else if id.max < nameLen s len + 1 then
        if addr = 0 then (h, id, false)
        else outside h id ⟨1, s.take (nameLen s len) ++ [0]⟩ addr
      else inside h id ⟨1, s.take (nameLen s len) ++ [0]⟩
        (if nameLen s len ≠ 0 then
          (id.val.write 0 (s.take (nameLen s len))).write (nameLen s len)
            (List.replicate (id.max - nameLen s len) 0)
        else id.val.write 0 (List.replicate id.max 0)) := by
  have eff : (if len < 0 then (strlen s : Int) else len) = nameLen s len := by
    unfold nameLen
    split <;> omega
  generalize nameLen s len = n at *
  have range : ((n : Int) < 0 ∨ 65535 < (n : Int) + 1) ↔ 65535 < n + 1 := by omega
  have size : ((id.max : Int) < n + 1) ↔ id.max < n + 1 := by omega
  have zero : (n : Int) ≠ 0 ↔ n ≠ 0 := by omega
  have next : ((n : Int) + 1).toNat = n + 1 := by omega
  have bytes : (s.take n ++ [0]).length = n + 1 := by simp [readable]
  unfold identifierSet outside inside
  simp only [Option.isSome_some, if_true, eff, range, size, zero, next, bytes, Int.toNat_natCast]
  by_cases bad : 65535 < n + 1
  · simp only [if_pos bad]
  · simp only [if_neg bad]
    by_cases large : id.max < n + 1
    · simp only [if_pos large]
    · simp only [if_neg large]
      by_cases empty : n = 0
      · simp only [empty, ne_eq, not_true_eq_false, if_false]
        cases ext : id.external <;> simp
      · simp only [ne_eq, empty, not_false_eq_true, if_true]
        cases ext : id.external <;> simp

theorem outside_replaced (good : Good h id c) (fault : h.fault = false)
    (large : id.max < c'.bytes.length) {addr : Nat} (valid : addr ≠ 0) (fresh : Fresh h addr)
    (kind : c'.charset = 0 ∨ c'.charset = 1 ∧ ∃ s, c'.bytes = s ++ [0]) :
    Replaced h id (outside h id c' addr).1 (outside h id c' addr).2.1 c' := by
  obtain ⟨absent, small⟩ := fresh valid
  obtain ⟨fault', blocks⟩ := good.renew fault absent c'.bytes rfl
  exact replaced_external good rfl rfl large rfl (base_setBase _ small) valid absent kind fault' blocks

theorem inside_replaced (good : Good h id c) (fault : h.fault = false) {val : Mem Byte}
    (fits : c'.bytes.length ≤ id.max) (bytes : val.read 0 c'.bytes.length = c'.bytes)
    (kind : c'.charset = 0 ∨ c'.charset = 1 ∧ ∃ s, c'.bytes = s ++ [0]) :
    Replaced h id (inside h id c' val).1 (inside h id c' val).2.1 c' := by
  obtain ⟨fault', blocks⟩ := good.release fault rfl
  exact replaced_inline good rfl rfl fits rfl bytes kind fault' blocks

/-- What a call does: nothing, or new content. -/
def Does (h : Heap) (id : Identifier) (c : Content) : Heap × Identifier × Bool → Prop
  | (h', id', false) => h' = h ∧ id' = id
  | (h', id', true) => Replaced h id h' id' c

theorem nameLen_le {s : List Byte} {len : Int} (readable : Readable (some s) len) :
    nameLen s len ≤ s.length := by
  have able := readable s rfl
  unfold nameLen
  split at able
  · next neg =>
    rw [if_pos neg]
    exact (List.takeWhile_prefix _).length_le
  · next pos =>
    rw [if_neg pos]
    exact able

theorem content_name (s : List Byte) (len : Int) :
    content (some s) len = ⟨1, s.take (nameLen s len) ++ [0]⟩ := by
  by_cases neg : len < 0
  · have whole := List.prefix_iff_eq_take.mp (List.takeWhile_prefix (l := s) fun b => decide (b ≠ 0))
    simp only [content, nameLen, strlen, if_pos neg]
    rw [← whole]
  · simp only [content, nameLen, if_neg neg]

/-- The inline bytes of a name. -/
theorem read_name (m : Mem Byte) (l : List Byte) (max : Nat) (fits : l.length + 1 ≤ max) :
    (if l.length ≠ 0 then (m.write 0 l).write l.length (List.replicate (max - l.length) 0)
      else m.write 0 (List.replicate max 0)).read 0 (l.length + 1) = l ++ [0] := by
  by_cases empty : l.length = 0
  · have nil := List.length_eq_zero_iff.mp empty
    subst nil
    have first : m.write 0 (List.replicate max 0) 0 = 0 := by
      have inside := Mem.write_inside m 0 (List.replicate max (0 : Byte)) (i := 0) (by simp; omega)
      simpa using inside
    simp only [empty, ne_eq, not_true_eq_false, if_false, Nat.zero_add, Mem.read_one, first,
      List.nil_append]
  · rw [if_pos empty, Mem.read_append, Nat.zero_add, Mem.read_one]
    have front : ((m.write 0 l).write l.length (List.replicate (max - l.length) 0)).read 0 l.length =
        l := by
      rw [Mem.read_write_disjoint _ _ (.inl (by omega)), Mem.read_write_self]
    have last : (m.write 0 l).write l.length (List.replicate (max - l.length) 0) l.length = 0 := by
      have inside := Mem.write_inside (m.write 0 l) l.length
        (List.replicate (max - l.length) (0 : Byte)) (i := 0) (by simp; omega)
      simpa using inside
    rw [front, last]

/-- Setting an identifier stores the name, unless the storage is refused. -/
theorem identifierSet_does (good : Good h id c) (fault : h.fault = false)
    {name : Option (List Byte)} {len : Int} (readable : Readable name len) {addr : Nat}
    (fresh : Fresh h addr) (meets : SetMeets id name len) :
    Does h id (content name len) (identifierSet h id name len addr) := by
  cases name with
  | none =>
      by_cases neg : len < 0
      · have nothing : identifierSet h id none len addr = (h, id, false) := by
          simp [identifierSet, neg]
        rw [nothing]
        exact ⟨rfl, rfl⟩
      · obtain ⟨n, rfl⟩ := Int.eq_ofNat_of_zero_le (Int.not_lt.mp neg)
        rw [identifierSet_null]
        have meets := meets rfl
        split
        · exact ⟨rfl, rfl⟩
        · split
          · next large =>
            split
            · exact ⟨rfl, rfl⟩
            · next valid =>
              have stored : content none (n : Int) = ⟨0, List.replicate n 0⟩ := rfl
              rw [stored]
              exact outside_replaced good fault (by simpa using large) valid fresh (.inl rfl)
          · next small =>
            have empty : n = 0 := by omega
            subst empty
            exact inside_replaced good fault (Nat.zero_le _) rfl (.inl rfl)
  | some s =>
      have le := nameLen_le readable
      rw [identifierSet_name h id le, content_name]
      have bytes : (s.take (nameLen s len) ++ [0]).length = nameLen s len + 1 := by simp [le]
      have kind : (⟨1, s.take (nameLen s len) ++ [0]⟩ : Content).charset = 0 ∨
          (⟨1, s.take (nameLen s len) ++ [0]⟩ : Content).charset = 1 ∧
            ∃ t, (⟨1, s.take (nameLen s len) ++ [0]⟩ : Content).bytes = t ++ [0] := .inr ⟨rfl, _, rfl⟩
      split
      · exact ⟨rfl, rfl⟩
      · split
        · next large =>
          split
          · exact ⟨rfl, rfl⟩
          · next valid => exact outside_replaced good fault (by rw [bytes]; exact large) valid fresh kind
        · next small =>
          refine inside_replaced good fault (by rw [bytes]; omega) ?_ kind
          rw [bytes]
          have taken : (s.take (nameLen s len)).length = nameLen s len := by simp [le]
          have read := read_name id.val (s.take (nameLen s len)) id.max (by rw [taken]; omega)
          rw [taken] at read
          exact read

/-- The condition for `mpt_identifier_copy`: the bytes do not reach the pointer of a block
    that is to be freed. -/
def CopyMeets (id from_ : Identifier) : Prop :=
  id.external = true → from_.len ≤ id.max → from_.len ≤ 4

/-- Copying an identifier stores the content of the other one. -/
theorem identifierCopy_does (good : Good h id c) (source : Good h from_ c') (fault : h.fault = false)
    {addr : Nat} (fresh : Fresh h addr) (meets : CopyMeets id from_) :
    Does h id c' (identifierCopy h id from_ addr) := by
  have data := source.data
  have len := source.len
  unfold identifierCopy
  rw [data]
  by_cases fits : from_.len ≤ id.max
  · simp only [if_pos fits]
    have fits' : c'.bytes.length ≤ id.max := len ▸ fits
    cases ext : id.external with
    | false =>
        have here : ({ id with val := id.val.write 0 c'.bytes } : Identifier).external = false := ext
        simp only [here, Bool.false_eq_true, if_false]
        refine replaced_inline good rfl len fits' source.charset ?_ source.kind fault fun q => ?_
        · rw [len]
          exact Mem.read_write_self id.val 0 c'.bytes
        · simp [ext]
    | true =>
        have there : ({ id with val := id.val.write 0 c'.bytes } : Identifier).external = true := ext
        have short : c'.bytes.length ≤ 4 := len ▸ meets ext fits
        have base : ({ id with val := id.val.write 0 c'.bytes } : Identifier).base = id.base := by
          unfold Identifier.base
          rw [Mem.read_write_disjoint _ _ (.inr (by omega))]
        obtain ⟨block, valid⟩ := good.block ext
        obtain ⟨fault', blocks⟩ := Heap.free_blocks block valid
        simp only [there, if_true, base]
        refine replaced_inline good rfl len fits' source.charset ?_ source.kind (fault'.trans fault)
          fun q => ?_
        · show ((id.val.write 0 c'.bytes).write 4 (pointerBytes 0 8)).read 0 from_.len = c'.bytes
          rw [len, Mem.read_write_disjoint _ _ (.inl (by omega)), Mem.read_write_self]
        · rw [blocks]
          simp [ext]
  · simp only [if_neg fits]
    split
    · exact ⟨rfl, rfl⟩
    · next valid =>
      obtain ⟨absent, small⟩ := fresh valid
      have large : id.max < c'.bytes.length := by
        rw [← len]
        exact Nat.not_le.mp fits
      have freed : (if id.external = true then (h.alloc addr c'.bytes).free id.base
          else h.alloc addr c'.bytes) = if id.external = true ∧ id.base ≠ 0 then
            (h.alloc addr c'.bytes).free id.base else h.alloc addr c'.bytes := by
        by_cases ext : id.external = true
        · rw [if_pos ext, if_pos ⟨ext, (good.block ext).2⟩]
        · rw [if_neg ext, if_neg fun both => ext both.1]
      obtain ⟨fault', blocks⟩ := good.renew fault absent c'.bytes freed
      cases ext : id.external with
      | false =>
          rw [ext] at fault' blocks
          simp only [Bool.false_eq_true, if_false] at fault' blocks ⊢
          exact replaced_external good rfl len large source.charset (base_setBase _ small) valid absent
            source.kind fault' (by simpa [ext] using blocks)
      | true =>
          rw [ext] at fault' blocks
          simp only [if_true] at fault' blocks ⊢
          exact replaced_external good rfl len large source.charset (base_setBase _ small) valid absent
            source.kind fault' (by simpa [ext] using blocks)

/-! ## Comparisons -/

theorem zeroLoop_eq (i : Nat) (l : List Byte) :
    zeroLoop i l = 0 ↔ l = List.replicate l.length 0 := by
  induction l generalizing i with
  | nil => simp [zeroLoop]
  | cons b bs ih =>
      unfold zeroLoop
      by_cases zero : b = 0
      · rw [if_neg (not_not.mpr zero), ih]
        simp [List.replicate_succ, zero]
      · rw [if_pos zero]
        simp only [List.length_cons, List.replicate_succ, List.cons.injEq, zero, false_and, iff_false]
        omega

theorem nameLoop_eq (i : Nat) (l s : List Byte) :
    nameLoop i l s = 0 ↔ l = s.take l.length := by
  induction l generalizing i s with
  | nil => simp [nameLoop]
  | cons b bs ih =>
      unfold nameLoop
      cases s with
      | nil =>
          simp only [List.head?_nil, ne_eq, reduceCtorEq, not_false_eq_true, if_true, List.take_nil,
            iff_false]
          omega
      | cons x s =>
          by_cases same : b = x
          · subst same
            simp [ih]
          · simp only [List.head?_cons, ne_eq, Option.some.injEq, same, not_false_eq_true, if_true,
              List.length_cons, List.take_succ_cons, List.cons.injEq, false_and, iff_false]
            omega

theorem memcmp_eq {l k : List Byte} (len : l.length = k.length) : memcmp l k = 0 ↔ l = k := by
  induction l generalizing k with
  | nil =>
      cases k with
      | nil => simp [memcmp]
      | cons => cases len
  | cons b bs ih =>
      cases k with
      | nil => cases len
      | cons c cs =>
          unfold memcmp
          by_cases same : b = c
          · rw [if_pos same, ih (Nat.succ.inj len), same]
            simp
          · rw [if_neg same]
            simp only [List.cons.injEq, same, false_and, iff_false]
            split <;> omega

/-- Identifiers are equal when their contents are. -/
theorem inequal_iff (good : Good h id c) (good' : Good h id' c') :
    identifierInequal h id id' = 0 ↔ c = c' := by
  have len := good.len
  have len' := good'.len
  have charset := good.charset
  have charset' := good'.charset
  have same : c = c' ↔ c.charset = c'.charset ∧ c.bytes = c'.bytes := by
    cases c
    cases c'
    simp
  rw [same]
  unfold identifierInequal
  rw [good.data, good'.data, charset, charset', len, len']
  by_cases eq : c.charset = c'.charset
  · rw [if_neg (not_not.mpr eq)]
    by_cases size : c.bytes.length = c'.bytes.length
    · rw [if_neg (not_not.mpr size), memcmp_eq size]
      simp [eq]
    · rw [if_pos size]
      refine ⟨fun zero => absurd zero (by omega), fun both => absurd (congrArg List.length both.2) size⟩
  · rw [if_pos eq]
    refine ⟨fun zero => absurd zero (by omega), fun both => absurd both.1 eq⟩

/-- The comparison with a name. -/
theorem compare_name (good : Good h id c) {s : List Byte} {len : Int}
    (readable : Readable (some s) len) :
    identifierCompare h id (some s) len = 0 ↔ c = content (some s) len := by
  have le := nameLen_le readable
  have size := good.len
  rw [content_name]
  have eff : (if len < 0 then strlen s else len.toNat) = nameLen s len := rfl
  unfold identifierCompare
  simp only [Option.isSome_some, true_and, Option.isNone_some, Bool.false_eq_true, and_false, if_false,
    eff, good.data, good.charset]
  generalize nameLen s len = n at le ⊢
  rcases good.kind with other | ⟨utf, t, bytes⟩
  · rw [if_pos (by omega)]
    refine ⟨fun zero => absurd zero (by omega), fun eq => ?_⟩
    rw [eq] at other
    cases other
  · rw [bytes, List.length_append, List.length_singleton] at size
    have stored : c = ⟨1, s.take n ++ [0]⟩ ↔ t = s.take n := by
      obtain ⟨charset, l⟩ := c
      subst utf bytes
      simp
    rw [if_neg (not_not.mpr utf), stored, size, if_neg (by omega)]
    by_cases long : n + 1 = t.length + 1
    · obtain rfl : n = t.length := by omega
      have front : c.bytes.take t.length = t := by
        rw [bytes]
        exact List.take_left' rfl
      have last : c.bytes[t.length]? = some 0 := by
        rw [bytes]
        simp
      simp only [if_neg (not_not.mpr long), front, last]
      rw [← nameLoop_eq 0 t s]
      split
      · next differs => simp [differs]
      · next same => simpa using not_not.mp same
    · rw [if_pos long]
      refine ⟨fun zero => absurd zero (by omega), fun eq => absurd ?_ long⟩
      rw [eq, List.length_take, Nat.min_eq_left le]

/-- A null name is told from what is stored, unless one of two zeros less or more is. -/
def Plain (c : Content) (n : Nat) : Prop :=
  c.bytes ≠ List.replicate (n + 1) 0 ∧ (n = 0 ∨ c ≠ ⟨0, List.replicate n 0⟩)

theorem compare_null (good : Good h id c) (n : Nat) :
    (identifierCompare h id none n = 0 ↔ c = content none n) ↔ Plain c n := by
  have size := good.len
  have code : identifierCompare h id none n = 0 ↔
      n = 0 ∧ c.bytes = [] ∨ c.bytes = List.replicate (n + 1) 0 := by
    have positive : ¬ ((n : Int) < 0 ∧ (none : Option (List Byte)).isNone = true) := by simp
    unfold identifierCompare
    simp only [Option.isSome_none, Bool.false_eq_true, false_and, if_false, if_neg positive,
      Int.toNat_natCast, good.data]
    by_cases empty : n = 0 ∧ id.len = 0
    · rw [if_pos empty]
      have nil : c.bytes = [] := List.length_eq_zero_iff.mp (size.symm.trans empty.2)
      simp [empty.1, nil]
    · rw [if_neg empty]
      have nonempty : ¬ (n = 0 ∧ c.bytes = []) := fun both => empty ⟨both.1, by rw [size, both.2]; rfl⟩
      by_cases long : n + 1 = id.len
      · rw [if_neg (not_not.mpr long), zeroLoop_eq, ← size, ← long]
        simp [nonempty]
      · rw [if_pos long]
        refine ⟨fun zero => absurd zero (by omega), fun either => absurd ?_ long⟩
        rw [size, either.resolve_left nonempty, List.length_replicate]
  have stored : content none n = ⟨0, List.replicate n 0⟩ := rfl
  rw [code, stored]
  refine ⟨fun same => ⟨fun longer => ?_, ?_⟩, fun ⟨longer, shorter⟩ => ⟨fun found => ?_, fun eq => ?_⟩⟩
  · have eq := congrArg (fun c => c.bytes.length) (same.mp (.inr longer))
    simp [longer] at eq
  · by_cases zero : n = 0
    · exact .inl zero
    · refine .inr fun eq => ?_
      rcases same.mpr eq with ⟨none_, _⟩ | longer
      · exact zero none_
      · rw [eq] at longer
        have length := congrArg List.length longer
        simp at length
  · obtain ⟨zero, nil⟩ := found.resolve_right longer
    rcases good.kind with charset | ⟨_, t, bytes⟩
    · obtain ⟨cs, l⟩ := c
      subst zero
      simp only at charset nil
      rw [charset, nil]
      rfl
    · rw [nil] at bytes
      cases t <;> cases bytes
  · have zero := shorter.resolve_right (not_not.mpr eq)
    subst zero
    refine .inl ⟨rfl, ?_⟩
    rw [eq]
    rfl

/-! ## Runs -/

namespace Op

/-- The identifier that a call changes. -/
def target : Op → Nat
  | set i _ _ _ => i
  | copy i _ _ => i

/-- What it is to store. -/
def content (want : Nat → Content) : Op → Content
  | set _ name len _ => Ident.content name len
  | copy _ none _ => ⟨0, []⟩
  | copy _ (some j) _ => want j

/-- The name can be read, and `malloc` returns a new block. -/
def Valid (w : World) : Op → Prop
  | set _ name len addr => Readable name len ∧ Fresh w.heap addr
  | copy _ _ addr => Fresh w.heap addr

def Meets (w : World) : Op → Prop
  | set i name len _ => SetMeets (w.ids i) name len
  | copy _ none _ => True
  | copy i (some j) _ => i ≠ j → CopyMeets (w.ids i) (w.ids j)

end Op

/-- The identifiers and what they are to store, after one more call. -/
def step (s : World × (Nat → Content)) (op : Op) : World × (Nat → Content) :=
  ((op.run s.1).1, fun i =>
    if i = op.target ∧ (op.run s.1).2 = true then op.content s.2 else s.2 i)

def runs (s : World × (Nat → Content)) : List Op → World × (Nat → Content)
  | [] => s
  | op :: ops => runs (step s op) ops

/-- A condition for each call of a run. -/
def Always (p : World → Op → Prop) (s : World × (Nat → Content)) : List Op → Prop
  | [] => True
  | op :: ops => p s.1 op ∧ Always p (step s op) ops

/-- `mpt_identifier_init` for all of them. -/
def start (max : Nat → Nat) : World × (Nat → Content) :=
  (⟨⟨fun _ => none, false⟩, fun i => ⟨0, 0, max i, fun _ => 0⟩⟩, fun _ => ⟨0, []⟩)

theorem holds_start {max : Nat → Nat} (size : ∀ i, 12 ≤ max i) :
    Holds (start max).1 (start max).2 := by
  refine ⟨fun i => ⟨size i, rfl, rfl, fun _ => rfl, fun ext => ?_, .inl rfl⟩, fun i j ext => ?_,
    fun p some => ?_, rfl⟩
  · simp [start, Identifier.external] at ext
  · simp [start, Identifier.external] at ext
  · cases some

/-- A call that does what it is to do. -/
theorem Holds.put_does (holds : Holds w want) {i : Nat} {r : Heap × Identifier × Bool}
    (does : Does w.heap (w.ids i) c r) :
    Holds (w.put i r).1 fun j => if j = i ∧ (w.put i r).2 = true then c else want j := by
  obtain ⟨h', id', done⟩ := r
  cases done with
  | false =>
      obtain ⟨rfl, rfl⟩ := does
      have same : (w.put i (w.heap, w.ids i, false)).1 = w := by
        obtain ⟨heap, ids⟩ := w
        simp only [World.put, World.mk.injEq, true_and]
        funext j
        split
        · next eq => rw [eq]
        · rfl
      rw [same]
      simpa [World.put] using holds
  | true => simpa [World.put] using holds.put does

theorem Holds.step (holds : Holds w want) {op : Op} (valid : op.Valid w) (meets : op.Meets w) :
    Holds (step (w, want) op).1 (step (w, want) op).2 := by
  cases op with
  | set i name len addr =>
      exact holds.put_does
        (identifierSet_does (holds.good i) holds.fault valid.1 valid.2 meets)
  | copy i from_ addr =>
      cases from_ with
      | none =>
          have readable : Readable none 0 := nofun
          exact holds.put_does (identifierSet_does (holds.good i) holds.fault readable valid
            fun _ => .inl (Int.le_refl 0))
      | some j =>
          by_cases same : i = j
          · have nothing : Op.run w (.copy i (some j) addr) = (w, true) := by
              show (if i = j then _ else _) = _
              rw [if_pos same]
            have wants : Ident.step (w, want) (.copy i (some j) addr) = (w, want) := by
              unfold Ident.step
              simp only [nothing, Prod.mk.injEq, true_and]
              funext k
              split
              · next eq =>
                show want j = want k
                rw [eq.1, ← same]
                rfl
              · rfl
            rw [wants]
            exact holds
          · have copied : Op.run w (.copy i (some j) addr) =
                w.put i (identifierCopy w.heap (w.ids i) (w.ids j) addr) := by
              show (if i = j then _ else _) = _
              rw [if_neg same]
            unfold Ident.step
            simp only [copied]
            exact holds.put_does
              (identifierCopy_does (holds.good i) (holds.good j) holds.fault valid (meets same))

theorem Holds.runs {s : World × (Nat → Content)} (holds : Holds s.1 s.2) (ops : List Op)
    (valid : Always (fun w op => op.Valid w) s ops) (meets : Always (fun w op => op.Meets w) s ops) :
    Holds (runs s ops).1 (runs s ops).2 := by
  induction ops generalizing s with
  | nil => exact holds
  | cons op ops ih => exact ih (holds.step valid.1 meets.1) valid.2 meets.2

/-- What the identifiers tell is what they are to store. -/
structure Right (w : World) (want : Nat → Content) : Prop where
  data : ∀ i, w.heap.data (w.ids i) = (want i).bytes
  compare : ∀ i s len, Readable (some s) len →
    (identifierCompare w.heap (w.ids i) (some s) len = 0 ↔ want i = content (some s) len)
  null : ∀ i n, Plain (want i) n ↔
    (identifierCompare w.heap (w.ids i) none (n : Nat) = 0 ↔ want i = content none n)
  inequal : ∀ i j, identifierInequal w.heap (w.ids i) (w.ids j) = 0 ↔ want i = want j
  fault : w.heap.fault = false
  owned : ∀ p, (w.heap.blocks p).isSome ↔
    ∃ i, ((w.ids i).external = true ∧ (w.ids i).base = p) ∧
      ∀ j, (w.ids j).external = true ∧ (w.ids j).base = p → j = i

/-- After any calls that meet the condition, all identifiers keep what was assigned last. -/
theorem identifiers_of_run {max : Nat → Nat} (size : ∀ i, 12 ≤ max i) (ops : List Op)
    (valid : Always (fun w op => op.Valid w) (start max) ops)
    (meets : Always (fun w op => op.Meets w) (start max) ops) :
    Right (runs (start max) ops).1 (runs (start max) ops).2 := by
  have holds := (holds_start size).runs ops valid meets
  refine ⟨fun i => (holds.good i).data, fun i s len readable => compare_name (holds.good i) readable,
    fun i n => (compare_null (holds.good i) n).symm,
    fun i j => inequal_iff (holds.good i) (holds.good j), holds.fault, fun p => ⟨fun some => ?_, ?_⟩⟩
  · obtain ⟨i, ext, base⟩ := holds.owned p some
    exact ⟨i, ⟨ext, base⟩, fun j ⟨ext', base'⟩ => holds.apart j i ext' ext (base'.trans base.symm)⟩
  · rintro ⟨i, ⟨ext, base⟩, _⟩
    rw [← base, ((holds.good i).block ext).1]
    rfl

/-- A short name, a block without name, and a copy of it. -/
def sample : List Op :=
  [.set 0 (some [97, 98, 99]) 3 0, .set 1 none 40 4096, .copy 0 (some 1) 8192, .set 1 none 0 0]

theorem sample_right : Right (runs (start fun _ => 12) sample).1 (runs (start fun _ => 12) sample).2 :=
  identifiers_of_run (fun _ => Nat.le_refl 12) sample
    ⟨⟨by simp [Readable], by simp [Fresh]⟩, ⟨by simp [Readable], fun _ => ⟨rfl, by decide⟩⟩,
      fun _ => ⟨rfl, by decide⟩, ⟨by simp [Readable], by simp [Fresh]⟩, trivial⟩
    ⟨nofun, fun _ => .inr (by decide), fun _ ext => absurd ext (by decide), fun _ => .inl (by decide),
      trivial⟩

/-- A copy that fits overwrites the pointer before it is freed. -/
def overwritten : List Op :=
  [.set 0 (some (List.replicate 15 97)) 15 4096, .set 1 (some (List.replicate 8 98)) 8 0,
    .copy 0 (some 1) 0]

theorem pointer_overwritten : ¬ ∀ (max : Nat → Nat), (∀ i, 12 ≤ max i ∧ max i ≤ 252) → ∀ ops,
    Always (fun w op => op.Valid w) (start max) ops →
    Right (runs (start max) ops).1 (runs (start max) ops).2 := by
  intro all
  have right := all (fun _ => 12) (fun _ => by decide) overwritten
    ⟨⟨by simp [Readable], fun _ => ⟨rfl, by decide⟩⟩, ⟨by simp [Readable], by simp [Fresh]⟩,
      fun none => absurd rfl none, trivial⟩
  have fault : (runs (start fun _ => 12) overwritten).1.heap.fault = true := by decide
  rw [right.fault] at fault
  cases fault

end Mpt.Ident
