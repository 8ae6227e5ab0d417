import Mpt.Plot.RawData

/-! # Raw data is a table

All cycles are kept with their dimensions as a table, as far as advancing finds the next
cycle.
-/

namespace Mpt.Plot.Raw

/-! ## Lists with parts of one size -/

section Parts

variable {α : Type u} {l old new : List (List α)} {data : List Byte} {size count off : Nat}

theorem flatten_length (all : ∀ e ∈ l, e.length = size) : l.flatten.length = l.length * size := by
  induction l with
  | nil => simp
  | cons e l ih =>
      have rest := ih fun e' mem => all e' (List.mem_cons_of_mem _ mem)
      rw [List.flatten_cons, List.length_append, rest, all e (List.mem_cons_self ..), List.length_cons,
        Nat.succ_mul, Nat.add_comm]

theorem flatten_take (all : ∀ e ∈ l, e.length = size) (off : Nat) :
    (l.take off).flatten = l.flatten.take (off * size) := by
  induction l generalizing off with
  | nil => simp
  | cons e l ih =>
      cases off with
      | zero => simp
      | succ off =>
          have rest := ih (fun e' mem => all e' (List.mem_cons_of_mem _ mem)) off
          have len := all e (List.mem_cons_self ..)
          have whole : e.take ((off + 1) * size) = e := by
            refine List.take_of_length_le ?_
            rw [len, Nat.succ_mul]
            exact Nat.le_add_left ..
          rw [List.take_succ_cons, List.flatten_cons, List.flatten_cons, rest, List.take_append, whole, len,
            Nat.succ_mul, Nat.add_sub_cancel]

theorem flatten_drop (all : ∀ e ∈ l, e.length = size) (off : Nat) :
    (l.drop off).flatten = l.flatten.drop (off * size) := by
  induction l generalizing off with
  | nil => simp
  | cons e l ih =>
      cases off with
      | zero => simp
      | succ off =>
          have rest := ih (fun e' mem => all e' (List.mem_cons_of_mem _ mem)) off
          have len := all e (List.mem_cons_self ..)
          have nothing : e.drop ((off + 1) * size) = [] := by
            refine List.drop_eq_nil_of_le ?_
            rw [len, Nat.succ_mul]
            exact Nat.le_add_left ..
          rw [List.drop_succ_cons, List.flatten_cons, rest, List.drop_append, nothing, len, Nat.succ_mul,
            Nat.add_sub_cancel, List.nil_append]

/-- Elements are replaced where their data is. -/
theorem flatten_overwrite (zero : α) (old_ : ∀ e ∈ old, e.length = size) (new_ : ∀ e ∈ new, e.length = size)
    (off : Nat) :
    (overwrite (List.replicate size zero) old off new).flatten =
      overwrite zero old.flatten (off * size) new.flatten := by
  unfold overwrite
  rw [List.flatten_append, List.flatten_append, List.flatten_append, List.flatten_replicate_replicate,
    flatten_take old_, flatten_drop old_, flatten_length old_, flatten_length new_, Nat.sub_mul, Nat.add_mul]

theorem overwrite_size (zero : α) (old_ : ∀ e ∈ old, e.length = size) (new_ : ∀ e ∈ new, e.length = size)
    (off : Nat) : ∀ e ∈ overwrite (List.replicate size zero) old off new, e.length = size := by
  intro e mem
  unfold overwrite at mem
  rcases List.mem_append.mp mem with mem | mem
  · rcases List.mem_append.mp mem with mem | mem
    · rcases List.mem_append.mp mem with mem | mem
      · exact old_ e (List.mem_of_mem_take mem)
      · rw [List.eq_of_mem_replicate mem, List.length_replicate]
    · exact new_ e mem
  · exact old_ e (List.mem_of_mem_drop mem)

theorem elements_flatten (whole : data.length = count * size) : (elements size count data).flatten = data := by
  induction count generalizing data with
  | zero =>
      rw [Nat.zero_mul] at whole
      exact (List.eq_nil_of_length_eq_zero whole).symm
  | succ count ih =>
      have rest : (data.drop size).length = count * size := by
        rw [List.length_drop, whole, Nat.succ_mul, Nat.add_sub_cancel]
      unfold elements
      rw [List.flatten_cons, ih rest, List.take_append_drop]

theorem elements_size (whole : data.length = count * size) :
    ∀ e ∈ elements size count data, e.length = size := by
  induction count generalizing data with
  | zero => exact fun e mem => by cases mem
  | succ count ih =>
      have rest : (data.drop size).length = count * size := by
        rw [List.length_drop, whole, Nat.succ_mul, Nat.add_sub_cancel]
      intro e mem
      unfold elements at mem
      rcases List.mem_cons.mp mem with rfl | mem
      · rw [List.length_take, whole, Nat.succ_mul]
        exact Nat.min_eq_left (Nat.le_add_left ..)
      · exact ih rest e mem

end Parts

/-! ## Lists with a default behind them -/

section Defaults

variable {α : Type u} {l : List α} {d x : α}

theorem getD_padded (k i : Nat) : (l ++ List.replicate k d).getD i d = l.getD i d := by
  rw [List.getD_eq_getElem?_getD, List.getD_eq_getElem?_getD]
  by_cases inside : i < l.length
  · rw [List.getElem?_append_left inside]
  · rw [List.getElem?_append_right (Nat.not_lt.mp inside), List.getElem?_eq_none (Nat.not_lt.mp inside)]
    by_cases more : i - l.length < k
    · rw [List.getElem?_replicate_of_lt more]
      rfl
    · rw [List.getElem?_eq_none (by rw [List.length_replicate]; exact Nat.not_lt.mp more)]

theorem getD_set_self {i : Nat} (inside : i < l.length) : (l.set i x).getD i d = x := by
  rw [List.getD_eq_getElem?_getD, List.getElem?_set_self inside]
  rfl

theorem getD_set_other {i j : Nat} (other : j ≠ i) : (l.set i x).getD j d = l.getD j d := by
  rw [List.getD_eq_getElem?_getD, List.getD_eq_getElem?_getD, List.getElem?_set_ne (Ne.symm other)]

theorem padded_length (l : List α) (n : Nat) :
    (l ++ List.replicate (n + 1 - l.length) d).length = Nat.max l.length (n + 1) := by
  rw [List.length_append, List.length_replicate]
  show _ = max l.length (n + 1)
  omega

end Defaults

theorem int32_small {n : Nat} (small : n < 2 ^ 31) : int32 n = n := by
  unfold int32
  have rest : (n + 2 ^ 31) % 2 ^ 32 = n + 2 ^ 31 := Nat.mod_eq_of_lt (by omega)
  rw [rest]
  omega

/-- The dimension is there, or made with all before it. -/
theorem stageData_eq (st : Stage) (dim : Nat) :
    stageData st dim =
      if hasRoom st.length dim then some (st ++ List.replicate (dim + 1 - st.length) ⟨none⟩) else none := by
  unfold stageData
  by_cases inside : dim < st.length
  · have room : hasRoom st.length dim := .inl inside
    have none_ : dim + 1 - st.length = 0 := by omega
    rw [if_pos inside, if_pos room, none_, List.replicate_zero, List.append_nil]
  · by_cases fits : (dim + 1) * storeSize < 2 ^ 32
    · have room : hasRoom st.length dim := .inr fits
      rw [if_neg inside, if_neg (Nat.not_le.mpr fits), if_pos room]
    · have full : ¬ hasRoom st.length dim := fun wrong => wrong.elim inside fits
      rw [if_neg inside, if_pos (Nat.not_lt.mp fits), if_neg full]

/-! ## The table of the cycles -/

/-- What is in a store is what the cell says. -/
def Holds (d : Option (Nat × List Byte)) : Option Cell → Prop
  | none => d = none
  | some cell =>
      d = some cell.data ∧ ∃ size, scalarSize cell.type = some size ∧ ∀ e ∈ cell.elements, e.length = size

theorem Holds.data {d : Option (Nat × List Byte)} {cell : Option Cell} (holds : Holds d cell) :
    d = cell.map Cell.data := by
  cases cell with
  | none => exact holds
  | some cell => exact holds.1

structure Grid (stages : List Stage) (t : Table) : Prop where
  count : t.count = stages.length
  dims : ∀ c, t.dims c = (stages.getD c []).length
  cells : ∀ c d, Holds ((stages.getD c []).getD d ⟨none⟩).data (t.cell c d)
  small : ∀ c, t.dims c < 2 ^ 28

section Grids

variable {stages : List Stage} {t : Table} {nc dim : Nat}

/-- Cycles without dimensions are added. -/
theorem Grid.slice (grid : Grid stages t) (nc : Nat) :
    Grid (stageSlice stages nc) { t with count := Nat.max t.count (nc + 1) } := by
  obtain ⟨count, dims, cells, small⟩ := grid
  refine ⟨?_, fun c => ?_, fun c d => ?_, small⟩
  · show Nat.max t.count (nc + 1) = _
    unfold stageSlice
    rw [count, padded_length]
  · unfold stageSlice
    rw [getD_padded]
    exact dims c
  · unfold stageSlice
    rw [getD_padded]
    exact cells c d

/-- Dimensions of one cycle are added. -/
theorem Grid.extend (grid : Grid stages t) (inside : nc < stages.length)
    (room : hasRoom (t.dims nc) dim) :
    Grid (stages.set nc (stages.getD nc [] ++
      List.replicate (dim + 1 - (stages.getD nc []).length) ⟨none⟩)) (t.extend nc dim) := by
  obtain ⟨count, dims, cells, small⟩ := grid
  refine ⟨?_, fun c => ?_, fun c d => ?_, fun c => ?_⟩
  · rw [List.length_set]
    exact count
  · show Function.update t.dims nc _ c = _
    by_cases same : c = nc
    · subst same
      rw [Function.update_self, getD_set_self inside, padded_length, dims]
    · rw [Function.update_of_ne same, getD_set_other same]
      exact dims c
  · show Holds _ (t.cell c d)
    by_cases same : c = nc
    · subst same
      rw [getD_set_self inside, getD_padded]
      exact cells c d
    · rw [getD_set_other same]
      exact cells c d
  · show Function.update t.dims nc _ c < 2 ^ 28
    by_cases same : c = nc
    · subst same
      rw [Function.update_self]
      have old := small c
      show max (t.dims c) (dim + 1) < 2 ^ 28
      unfold hasRoom storeSize at room
      omega
    · rw [Function.update_of_ne same]
      exact small c

/-- One cell is replaced. -/
theorem Grid.replace (grid : Grid stages t) {d : Nat × List Byte} {cell : Cell}
    (inside : nc < stages.length) (there : dim < (stages.getD nc []).length) (holds : Holds (some d) (some cell)) :
    Grid (stages.set nc ((stages.getD nc []).set dim ⟨some d⟩))
      { t with cell := Function.update t.cell nc (Function.update (t.cell nc) dim (some cell)) } := by
  obtain ⟨count, dims, cells, small⟩ := grid
  refine ⟨?_, fun c => ?_, fun c i => ?_, small⟩
  · rw [List.length_set]
    exact count
  · by_cases same : c = nc
    · subst same
      rw [getD_set_self inside, List.length_set]
      exact dims c
    · rw [getD_set_other same]
      exact dims c
  · show Holds _ (Function.update t.cell nc _ c i)
    by_cases same : c = nc
    · subst same
      rw [getD_set_self inside, Function.update_self]
      by_cases same : i = dim
      · subst same
        rw [getD_set_self there, Function.update_self]
        exact holds
      · rw [getD_set_other same, Function.update_of_ne same]
        exact cells c i
    · rw [getD_set_other same, Function.update_of_ne same]
      exact cells c i

end Grids

/-! ## Setting the content of a store -/

section Content

variable {d : Option (Nat × List Byte)} {cell : Option Cell} {type size : Nat} {data : List Byte}

theorem bufferSet_elements (old : List (List Byte)) (old_ : ∀ e ∈ old, e.length = size)
    (whole : data.length % size = 0) (off : Nat) :
    bufferSet old.flatten size (off * size) data =
      (overwrite (List.replicate size 0) old off (elements size (data.length / size) data)).flatten := by
  have count : data.length = data.length / size * size := by
    have split := Nat.div_add_mod data.length size
    rw [whole, Nat.add_zero, Nat.mul_comm] at split
    exact split.symm
  unfold bufferSet
  rw [flatten_overwrite 0 old_ (elements_size count), elements_flatten count, flatten_length old_,
    Nat.mul_mod_left, Nat.sub_zero, List.take_of_length_le (Nat.le_of_eq (flatten_length old_))]

/-- A store is set where the cell can have elements of the type. -/
theorem arraySet_cell (known : scalarSize type = some size) (holds : Holds d cell) (data : List Byte)
    (off : Nat) :
    arraySet d type size data off =
        match ofType type cell with
        | none => none
        | some old =>
            if data.length % size ≠ 0 then none
            else some (type, (overwrite (List.replicate size 0) old off
              (elements size (data.length / size) data)).flatten) := by
  unfold arraySet
  by_cases part : data.length % size ≠ 0
  · simp only [if_pos part]
    cases ofType type cell <;> rfl
  · have whole : data.length % size = 0 := not_not.mp part
    simp only [if_neg part]
    cases cell with
    | none =>
        have empty : d = none := holds
        subst empty
        have set := bufferSet_elements [] (fun e mem => by cases mem) whole off
        simp only [ofType]
        rw [← set]
        rfl
    | some cell =>
        obtain ⟨rfl, size', known', all⟩ := holds
        have data_ : cell.data = (cell.type, cell.elements.flatten) := rfl
        rw [data_]
        simp only [ofType]
        by_cases same : cell.type = type
        · subst same
          rw [known] at known'
          cases known'
          rw [if_pos rfl, if_neg (not_not.mpr rfl)]
          exact congrArg (fun l => some (cell.type, l)) (bufferSet_elements cell.elements all whole off)
        · rw [if_neg same, if_pos same]

/-- What was set is what the new cell says. -/
theorem holds_new (known : scalarSize type = some size) (holds : Holds d cell) {old : List (List Byte)}
    (fits : ofType type cell = some old) (whole : ¬ data.length % size ≠ 0) (off : Nat) :
    Holds (some (type, (overwrite (List.replicate size 0) old off
        (elements size (data.length / size) data)).flatten))
      (some ⟨type, overwrite (List.replicate size 0) old off (elements size (data.length / size) data)⟩) := by
  have count : data.length = data.length / size * size := by
    have split := Nat.div_add_mod data.length size
    rw [not_not.mp whole, Nat.add_zero, Nat.mul_comm] at split
    exact split.symm
  have old_ : ∀ e ∈ old, e.length = size := by
    cases cell with
    | none =>
        cases fits
        exact fun e mem => by cases mem
    | some cell =>
        obtain ⟨-, size', known', all⟩ := holds
        unfold ofType at fits
        by_cases same : cell.type = type
        · subst same
          rw [known] at known'
          cases known'
          simp only at fits
          cases fits
          exact all
        · simp only [if_neg same] at fits
          cases fits
  exact ⟨rfl, size, known, overwrite_size 0 old_ (elements_size count) off⟩

end Content

/-! ## Steps -/

/-- The table is the one of the cycles.  There is a cycle when there is a buffer. -/
structure Shows (rd : RawData) (t : Table) : Prop where
  grid : Grid rd.stages t
  act : t.act = rd.act
  max : t.max = rd.max
  bound : rd.act < 2 ^ 31
  single : rd.max ≤ 1 → rd.act = 0
  nonempty : ∀ c, rd.st = some c → 1 ≤ c.stages.length

/-- The condition for a call: one cycle only, or the next one is the first that is missing and
    the buffer was not made by a modification; numbers of cycles are told as an `int`. -/
def FineRaw (rd : RawData) : RawCall → Prop
  | .modify _ _ _ => True
  | .advance =>
      nextCycle rd.act rd.max < 2 ^ 31 ∧
        (rd.max ≤ 1 ∨ (∀ c, rd.st = some c → c.typed = false) ∧ rd.stages.length ≤ nextCycle rd.act rd.max)
  | .values _ _ => rd.stages.length < 2 ^ 31
  | .dimensions _ => rd.stages.length < 2 ^ 31
  | .stages => rd.stages.length < 2 ^ 31

section Steps

variable {rd : RawData} {t : Table}

/-- Cycles are replaced by others, of which there are as many at least. -/
theorem Shows.replace (shows_ : Shows rd t) {typed : Bool} {stages : List Stage} {t' : Table}
    (grid : Grid stages t') (act : t'.act = t.act) (max : t'.max = t.max) (some_ : 1 ≤ stages.length) :
    Shows { rd with st := some ⟨typed, stages⟩ } t' := by
  refine ⟨grid, act.trans shows_.act, max.trans shows_.max, shows_.bound, shows_.single, ?_⟩
  intro c same
  cases same
  exact some_

theorem stageSlice_length (stages : List Stage) (nc : Nat) : nc < (stageSlice stages nc).length := by
  unfold stageSlice
  rw [padded_length]
  exact Nat.le_max_right _ _

/-- The store of a dimension that is there is set where the cell can be. -/
theorem shows_set (shows_ : Shows rd t) {stages : List Stage} {stage : Stage} {t' : Table} {typed : Bool}
    {nc dim type size : Nat} (grid : Grid (stages.set nc stage) t') (inside : nc < stages.length)
    (there : dim < stage.length) (act : t'.act = t.act) (max : t'.max = t.max)
    (known : scalarSize type = some size) (data : List Byte) (off : Nat) :
    let a : RawData × Option RawError :=
      match arraySet (stage.getD dim ⟨none⟩).data type size data off with
      | none => ({ rd with st := some ⟨typed, stages.set nc stage⟩ }, some .badOperation)
      | some d => ({ rd with st := some ⟨typed, stages.set nc (stage.set dim ⟨some d⟩)⟩ }, none)
    let b : Table × Option RawError :=
      match ofType type (t'.cell nc dim) with
      | none => (t', some .badOperation)
      | some old =>
          if data.length % size ≠ 0 then
            (t', some .badOperation)
          else
            let new := overwrite (List.replicate size 0) old off (elements size (data.length / size) data)
            let row := Function.update (t'.cell nc) dim (some ⟨type, new⟩)
            ({ t' with cell := Function.update t'.cell nc row }, none)
    a.2 = b.2 ∧ Shows a.1 b.1 := by
  intro a b
  have some_ : 1 ≤ (stages.set nc stage).length := by
    rw [List.length_set]
    exact Nat.lt_of_le_of_lt (Nat.zero_le _) inside
  have inside' : nc < (stages.set nc stage).length := by
    rw [List.length_set]
    exact inside
  have here : (stages.set nc stage).getD nc [] = stage := getD_set_self inside
  have holds : Holds (stage.getD dim ⟨none⟩).data (t'.cell nc dim) := by
    have holds := grid.cells nc dim
    rwa [here] at holds
  have set := arraySet_cell known holds data off
  have kept : Shows { rd with st := some ⟨typed, stages.set nc stage⟩ } t' :=
    shows_.replace grid act max some_
  cases fits : ofType type (t'.cell nc dim) with
  | none =>
      simp only [fits] at set
      simp only [a, b, set, fits]
      exact ⟨trivial, kept⟩
  | some old =>
      by_cases part : data.length % size ≠ 0
      · simp only [fits, if_pos part] at set
        simp only [a, b, set, fits, if_pos part]
        exact ⟨trivial, kept⟩
      · have new := holds_new known holds fits part off
        have replaced := grid.replace inside' (by rw [here]; exact there) new
        rw [here, List.set_set] at replaced
        simp only [fits, if_neg part] at set
        simp only [a, b, set, fits, if_neg part]
        refine ⟨trivial, shows_.replace replaced act max ?_⟩
        rw [List.length_set]
        exact Nat.lt_of_le_of_lt (Nat.zero_le _) inside

theorem shows_modify (shows_ : Shows rd t) (dim : UInt32) (val : Values) (vd : ValDest) :
    (rdModify rd dim val vd).2 = (t.modify dim.toNat val vd.cycle.toNat vd.offset.toNat).2 ∧
      Shows (rdModify rd dim val vd).1 (t.modify dim.toNat val vd.cycle.toNat vd.offset.toNat).1 := by
  unfold rdModify Table.modify
  cases known : scalarSize val.type with
  | none => exact ⟨rfl, shows_⟩
  | some size =>
      have cycle : (if vd.cycle = 0 then rd.act % 2 ^ 32 else vd.cycle.toNat) =
          if vd.cycle.toNat = 0 then t.act else vd.cycle.toNat := by
        have zero : vd.cycle = 0 ↔ vd.cycle.toNat = 0 := by
          rw [← UInt32.toNat_inj]
          rfl
        have small : rd.act % 2 ^ 32 = t.act := by
          rw [shows_.act]
          exact Nat.mod_eq_of_lt (Nat.lt_trans shows_.bound (by decide))
        simp only [zero, small]
      dsimp only
      rw [cycle]
      generalize (if vd.cycle.toNat = 0 then t.act else vd.cycle.toNat) = nc
      have refuse : (if t.max ≠ 0 then t.max ≤ nc else t.count < nc) ↔
          if rd.max ≠ 0 then rd.max ≤ nc else rd.stages.length < nc := by
        rw [shows_.max, shows_.grid.count]
      by_cases refused : if rd.max ≠ 0 then rd.max ≤ nc else rd.stages.length < nc
      · rw [if_pos refused, if_pos (refuse.mpr refused)]
        exact ⟨rfl, shows_⟩
      · rw [if_neg refused, if_neg (mt refuse.mp refused)]
        have grid := shows_.grid.slice nc
        have inside := stageSlice_length rd.stages nc
        have some_ : 1 ≤ (stageSlice rd.stages nc).length := Nat.lt_of_le_of_lt (Nat.zero_le _) inside
        rw [stageData_eq, ← grid.dims nc]
        by_cases room : hasRoom (t.dims nc) dim.toNat
        · have extended := grid.extend inside room
          have there : dim.toNat < ((stageSlice rd.stages nc).getD nc [] ++ List.replicate
              (dim.toNat + 1 - ((stageSlice rd.stages nc).getD nc []).length) (ValueStore.mk none)).length := by
            rw [padded_length]
            exact Nat.le_max_right _ _
          simp only [if_pos room]
          rw [← grid.dims nc] at extended there
          exact shows_set shows_ extended inside there rfl rfl known val.data vd.offset.toNat
        · simp only [if_neg room]
          exact ⟨trivial, shows_.replace grid rfl rfl some_⟩

theorem grid_append (grid : Grid rd.stages t) (act : Nat) :
    Grid (rd.stages ++ [[]]) { t with act := act, count := t.count + 1 } := by
  obtain ⟨count, dims, cells, small⟩ := grid
  have same : ∀ c, (rd.stages ++ [[]]).getD c [] = rd.stages.getD c [] :=
    fun c => getD_padded (l := rd.stages) (d := []) 1 c
  refine ⟨?_, fun c => ?_, fun c d => ?_, small⟩
  · rw [List.length_append, ← count]
    rfl
  · rw [same]
    exact dims c
  · rw [same]
    exact cells c d

theorem nextCycle_single {act max : Nat} (single : max ≤ 1) : nextCycle act max = 0 := by
  unfold nextCycle
  rw [if_neg (by omega)]

theorem shows_advance (shows_ : Shows rd t) (fine : FineRaw rd .advance) :
    (rdAdvance rd).2 = t.advance.2 ∧ Shows (rdAdvance rd).1 t.advance.1 := by
  obtain ⟨bound, found⟩ := fine
  have same : nextCycle t.act t.max = nextCycle rd.act rd.max := by
    rw [shows_.act, shows_.max]
  unfold rdAdvance Table.advance
  simp only [same, shows_.grid.count]
  have added : ∀ typed, rd.stages.length ≤ nextCycle rd.act rd.max →
      Shows { rd with st := some ⟨typed, rd.stages ++ [[]]⟩, act := nextCycle rd.act rd.max }
        { t with act := nextCycle rd.act rd.max, count := rd.stages.length + 1 } := by
    intro typed _
    have grid := grid_append shows_.grid (nextCycle rd.act rd.max)
    rw [shows_.grid.count] at grid
    refine ⟨grid, rfl, shows_.max, bound, nextCycle_single, ?_⟩
    intro c same
    cases same
    show 1 ≤ (rd.stages ++ [[]]).length
    rw [List.length_append]
    exact Nat.le_add_left ..
  cases buffer : rd.st with
  | none =>
      have empty : rd.stages = [] := by
        unfold RawData.stages
        rw [buffer]
        rfl
      have new := added false (by rw [empty]; exact Nat.zero_le _)
      rw [empty] at new
      simp only [empty, List.length_nil, Nat.not_lt_zero, if_false]
      exact ⟨int32_small bound, new⟩
  | some c =>
      have stages : rd.stages = c.stages := by
        unfold RawData.stages
        rw [buffer]
        rfl
      have some_ := shows_.nonempty c buffer
      rw [← stages] at some_
      simp only [← stages]
      by_cases reuse : nextCycle rd.act rd.max < rd.stages.length
      · simp only [if_pos reuse]
        have single : rd.max ≤ 1 := by
          rcases found with single | ⟨_, missing⟩
          · exact single
          · exact absurd reuse (Nat.not_lt.mpr missing)
        refine ⟨int32_small bound, ?_⟩
        have stays : nextCycle rd.act rd.max = t.act := by
          rw [nextCycle_single single, shows_.act, shows_.single single]
        rw [stays, ← shows_.grid.count]
        exact shows_
      · simp only [if_neg reuse]
        have missing := Nat.not_lt.mp reuse
        rcases found with single | ⟨untyped, _⟩
        · rw [nextCycle_single single] at missing
          omega
        · have new := added c.typed missing
          simp only [untyped c buffer] at new ⊢
          exact ⟨int32_small bound, new⟩

/-- The cycle that is asked for, when all numbers fit an `int`. -/
theorem asked_cycle (nc : Int) (act : Nat) : (if nc < 0 then (act : Int) else nc).toNat =
    if nc < 0 then act else nc.toNat := by
  split
  · exact Int.toNat_natCast act
  · rfl

theorem shows_values (shows_ : Shows rd t) (dim : UInt32) (nc : Int) (fine : rd.stages.length < 2 ^ 31) :
    (rdValues rd dim nc).2 = (t.values dim.toNat nc).2 ∧
      Shows (rdValues rd dim nc).1 (t.values dim.toNat nc).1 := by
  unfold rdValues Table.values
  rw [← asked_cycle, shows_.act, shows_.grid.count]
  cases buffer : rd.st with
  | none =>
      have empty : rd.stages = [] := by
        unfold RawData.stages
        rw [buffer]
        rfl
      simp only [empty, List.length_nil, Nat.zero_le, if_true]
      exact ⟨trivial, shows_⟩
  | some c =>
      have stages : rd.stages = c.stages := by
        unfold RawData.stages
        rw [buffer]
        rfl
      simp only [← stages, int32_small shows_.bound, int32_small fine]
      generalize asked : (if nc < 0 then (rd.act : Int) else nc) = n
      have positive : 0 ≤ n := by
        rw [← asked]
        split <;> omega
      obtain ⟨k, rfl⟩ := Int.eq_ofNat_of_zero_le positive
      by_cases missing : rd.stages.length ≤ k
      · rw [if_pos (Int.ofNat_le.mpr missing), Int.toNat_natCast, if_pos missing]
        exact ⟨rfl, shows_⟩
      · have inside := Nat.not_le.mp missing
        rw [if_neg (fun wrong => missing (Int.ofNat_le.mp wrong)), if_neg (Int.not_lt.mpr positive),
          Int.toNat_natCast, if_neg missing, stageData_eq, ← shows_.grid.dims k]
        by_cases room : hasRoom (t.dims k) dim.toNat
        · have extended := shows_.grid.extend inside room
          have holds := extended.cells k dim.toNat
          rw [getD_set_self inside, ← shows_.grid.dims k] at holds
          rw [← shows_.grid.dims k] at extended
          simp only [if_pos room]
          refine ⟨congrArg RawValues.store holds.data, shows_.replace extended rfl rfl ?_⟩
          rw [List.length_set]
          exact Nat.lt_of_le_of_lt (Nat.zero_le _) inside
        · simp only [if_neg room]
          exact ⟨trivial, shows_⟩

theorem shows_dimensions (shows_ : Shows rd t) (part : Int) (fine : rd.stages.length < 2 ^ 31) :
    rdDimensions rd part = t.dimensions part := by
  unfold rdDimensions Table.dimensions
  rw [← asked_cycle, shows_.act, shows_.grid.count]
  cases buffer : rd.st with
  | none =>
      have empty : rd.stages = [] := by
        unfold RawData.stages
        rw [buffer]
        rfl
      simp only [empty, List.length_nil, if_true]
  | some c =>
      have stages : rd.stages = c.stages := by
        unfold RawData.stages
        rw [buffer]
        rfl
      have some_ := shows_.nonempty c buffer
      rw [← stages] at some_
      simp only [← stages, int32_small shows_.bound, int32_small fine]
      generalize asked : (if part < 0 then (rd.act : Int) else part) = n
      have positive : 0 ≤ n := by
        rw [← asked]
        split <;> omega
      obtain ⟨k, rfl⟩ := Int.eq_ofNat_of_zero_le positive
      rw [if_neg (Nat.ne_of_gt some_), Int.toNat_natCast]
      by_cases missing : rd.stages.length ≤ k
      · rw [if_pos (Int.ofNat_le.mpr missing), if_pos missing]
      · have small : (rd.stages.getD k []).length < 2 ^ 31 := by
          have bound := shows_.grid.small k
          rw [shows_.grid.dims k] at bound
          omega
        rw [if_neg (fun wrong => missing (Int.ofNat_le.mp wrong)), if_neg missing, int32_small small,
          shows_.grid.dims k]

theorem shows_step (shows_ : Shows rd t) (call : RawCall) (fine : FineRaw rd call) :
    (rawCalls.step rd call).2 = (tableCalls.step t call).2 ∧
      Shows (rawCalls.step rd call).1 (tableCalls.step t call).1 := by
  cases call with
  | modify dim val vd =>
      obtain ⟨answer, kept⟩ := shows_modify shows_ dim val vd
      exact ⟨congrArg RawAnswer.modified answer, kept⟩
  | advance =>
      obtain ⟨answer, kept⟩ := shows_advance shows_ fine
      exact ⟨congrArg RawAnswer.advanced answer, kept⟩
  | values dim nc =>
      obtain ⟨answer, kept⟩ := shows_values shows_ dim nc fine
      exact ⟨congrArg RawAnswer.values answer, kept⟩
  | dimensions part => exact ⟨congrArg RawAnswer.dimensions (shows_dimensions shows_ part fine), shows_⟩
  | stages =>
      refine ⟨?_, shows_⟩
      show RawAnswer.stages (int32 rd.stages.length) = .stages t.count
      rw [int32_small fine, shows_.grid.count]

end Steps

/-! ## The table -/

theorem update_other {cells : Nat → Nat → Option Cell} {cell : Option Cell} {nc dim c d : Nat}
    (other : c ≠ nc ∨ d ≠ dim) :
    Function.update cells nc (Function.update (cells nc) dim cell) c d = cells c d := by
  by_cases same : c = nc
  · subst same
    rw [Function.update_self, Function.update_of_ne (other.resolve_left fun wrong => wrong rfl)]
  · rw [Function.update_of_ne same]

section Tables

variable {t : Table}

/-- A modification keeps all cells but one, and all of them when it fails. -/
theorem modify_others (t : Table) (dim : Nat) (val : Values) (cycle offset c d : Nat)
    (other : (t.modify dim val cycle offset).2 ≠ none ∨ c ≠ (if cycle = 0 then t.act else cycle) ∨ d ≠ dim) :
    (t.modify dim val cycle offset).1.cell c d = t.cell c d := by
  unfold Table.modify at other ⊢
  cases known : scalarSize val.type with
  | none => rfl
  | some size =>
      simp only [known] at other ⊢
      generalize (if cycle = 0 then t.act else cycle) = nc at other ⊢
      by_cases refused : if t.max ≠ 0 then t.max ≤ nc else t.count < nc
      · rw [if_pos refused]
      · rw [if_neg refused] at other ⊢
        by_cases room : hasRoom (t.dims nc) dim
        · rw [if_pos room] at other ⊢
          cases fits : ofType val.type ((Table.extend _ nc dim).cell nc dim) with
          | none => rfl
          | some old =>
              simp only [fits] at other ⊢
              by_cases part : val.data.length % size ≠ 0
              · rw [if_pos part]
                rfl
              · rw [if_neg part] at other ⊢
                rcases other with wrong | other
                · exact absurd rfl wrong
                · exact update_other other
        · rw [if_neg room]

/-- Cycles and dimensions are not lost. -/
structure Grows (t t' : Table) : Prop where
  count : t.count ≤ t'.count
  dims : ∀ c, t.dims c ≤ t'.dims c

theorem grows_same {t' : Table} (count : t'.count = t.count) (dims : t'.dims = t.dims) : Grows t t' :=
  ⟨Nat.le_of_eq count.symm, fun c => Nat.le_of_eq (congrFun dims c).symm⟩

theorem Grows.trans {t₁ t₂ t₃ : Table} (first : Grows t₁ t₂) (second : Grows t₂ t₃) : Grows t₁ t₃ :=
  ⟨Nat.le_trans first.count second.count, fun c => Nat.le_trans (first.dims c) (second.dims c)⟩

theorem grows_count (t : Table) (n : Nat) : Grows t { t with count := Nat.max t.count n } :=
  ⟨Nat.le_max_left _ _, fun _ => Nat.le_refl _⟩

theorem grows_extend (t : Table) (nc dim : Nat) : Grows t (t.extend nc dim) := by
  refine ⟨Nat.le_refl _, fun c => ?_⟩
  show t.dims c ≤ Function.update t.dims nc _ c
  by_cases same : c = nc
  · subst same
    rw [Function.update_self]
    exact Nat.le_max_left _ _
  · exact Nat.le_of_eq (Function.update_of_ne same _ _).symm

theorem grows_modify (t : Table) (dim : Nat) (val : Values) (cycle offset : Nat) :
    Grows t (t.modify dim val cycle offset).1 := by
  unfold Table.modify
  cases scalarSize val.type with
  | none => exact grows_same rfl rfl
  | some size =>
      simp only
      generalize (if cycle = 0 then t.act else cycle) = nc
      by_cases refused : if t.max ≠ 0 then t.max ≤ nc else t.count < nc
      · rw [if_pos refused]
        exact grows_same rfl rfl
      · rw [if_neg refused]
        have counted := grows_count t (nc + 1)
        split
        · have extended := counted.trans (grows_extend _ nc dim)
          cases ofType val.type ((Table.extend _ nc dim).cell nc dim) with
          | none => exact extended
          | some old =>
              simp only
              split
              · exact extended
              · exact ⟨extended.count, extended.dims⟩
        · exact counted

theorem grows_step (t : Table) (call : RawCall) : Grows t (tableCalls.step t call).1 := by
  cases call with
  | modify dim val vd => exact grows_modify t dim.toNat val vd.cycle.toNat vd.offset.toNat
  | advance =>
      refine ⟨?_, fun c => Nat.le_refl _⟩
      show t.count ≤ if nextCycle t.act t.max < t.count then t.count else t.count + 1
      split
      · exact Nat.le_refl _
      · exact Nat.le_succ _
  | values dim nc =>
      show Grows t (t.values dim.toNat nc).1
      unfold Table.values
      simp only
      generalize (if nc < 0 then t.act else nc.toNat) = k
      by_cases missing : t.count ≤ k
      · rw [if_pos missing]
        exact grows_same rfl rfl
      · rw [if_neg missing]
        by_cases room : hasRoom (t.dims k) dim.toNat
        · rw [if_pos room]
          exact grows_extend t k dim.toNat
        · rw [if_neg room]
          exact grows_same rfl rfl
  | dimensions part => exact grows_same rfl rfl
  | stages => exact grows_same rfl rfl

theorem grows_run (t : Table) (calls : List RawCall) : Grows t (tableCalls.after t calls) :=
  Machine.invariant_always (P := fun t' => Grows t t')
    (fun t' call grows => grows.trans (grows_step t' call)) (grows_same rfl rfl) calls

end Tables

/-! ## Runs -/

theorem shows_start (max : Int) : Shows (rawdataCreate max) (Table.empty max) := by
  refine ⟨⟨rfl, fun c => rfl, fun c d => rfl, fun c => ?_⟩, rfl, rfl, ?_, fun _ => rfl, ?_⟩
  · show 0 < 2 ^ 28
    decide
  · show 0 < 2 ^ 31
    decide
  · intro c wrong
    cases wrong

/-- In every run whose calls meet the condition, raw data answers as a table does; and no cycle
    and no dimension is lost from one state to a later one. -/
theorem rawdata_of_run (max : Int) (calls : List RawCall)
    (fine : rawCalls.Meets FineRaw (rawdataCreate max) calls) :
    rawCalls.outputs (rawdataCreate max) calls = tableCalls.outputs (Table.empty max) calls ∧
      ∀ is js, calls = is ++ js →
        (rawCalls.after (rawdataCreate max) is).stages.length ≤
            (rawCalls.after (rawdataCreate max) calls).stages.length ∧
          ∀ c, ((rawCalls.after (rawdataCreate max) is).stages.getD c []).length ≤
            ((rawCalls.after (rawdataCreate max) calls).stages.getD c []).length := by
  have simulated : ∀ is, rawCalls.Meets FineRaw (rawdataCreate max) is →
      rawCalls.outputs (rawdataCreate max) is = tableCalls.outputs (Table.empty max) is ∧
        Shows (rawCalls.after (rawdataCreate max) is) (tableCalls.after (Table.empty max) is) := fun is meets =>
    Machine.simulation (fun _ _ call shows_ fine => shows_step shows_ call fine) (shows_start max) meets
  refine ⟨(simulated calls fine).1, ?_⟩
  rintro is js rfl
  have before := (simulated is ((Machine.meets_append _ is js).mp fine).1).2.grid
  have after_ := (simulated (is ++ js) fine).2.grid
  have grows := grows_run (tableCalls.after (Table.empty max) is) js
  rw [← Machine.after_append] at grows
  refine ⟨?_, fun c => ?_⟩
  · rw [← before.count, ← after_.count]
    exact grows.count
  · rw [← before.dims c, ← after_.dims c]
    exact grows.dims c

/-- The first cycle is made by advancing, the second one by a modification. -/
theorem rawdata_sample :
    rawCalls.outputs (rawdataCreate 2)
        [.advance, .modify 0 ⟨0x79, [1, 2]⟩ ⟨0, 1⟩, .values 0 (-1), .stages] =
      tableCalls.outputs (Table.empty 2)
        [.advance, .modify 0 ⟨0x79, [1, 2]⟩ ⟨0, 1⟩, .values 0 (-1), .stages] := by
  have fine : rawCalls.Meets FineRaw (rawdataCreate 2)
      [.advance, .modify 0 ⟨0x79, [1, 2]⟩ ⟨0, 1⟩, .values 0 (-1), .stages] := by
    refine ⟨⟨by decide, .inr ⟨?_, by decide⟩⟩, trivial, ?_, ?_, trivial⟩
    · intro c wrong
      cases wrong
    · show (2 : Nat) < 2 ^ 31
      decide
    · show (2 : Nat) < 2 ^ 31
      decide
  exact (rawdata_of_run 2 _ fine).1

/-- After a modification no cycle is added; a cycle that is there is not made the current one. -/
theorem rawdata_wrong :
    rawCalls.outputs (rawdataCreate 2) [.modify 0 ⟨0x79, [1]⟩ ⟨0, 0⟩, .advance] ≠
        tableCalls.outputs (Table.empty 2) [.modify 0 ⟨0x79, [1]⟩ ⟨0, 0⟩, .advance] ∧
      rawCalls.outputs (rawdataCreate 2)
          [.advance, .modify 0 ⟨0x79, [1]⟩ ⟨0, 0⟩, .advance, .modify 0 ⟨0x79, [2]⟩ ⟨0, 0⟩, .values 0 0] ≠
        tableCalls.outputs (Table.empty 2)
          [.advance, .modify 0 ⟨0x79, [1]⟩ ⟨0, 0⟩, .advance, .modify 0 ⟨0x79, [2]⟩ ⟨0, 0⟩, .values 0 0] := by
  refine ⟨by decide +kernel, by decide +kernel⟩

end Mpt.Plot.Raw
