import Mpt.Types.Registry
import Mpt.Run
import Mathlib.Logic.Function.Basic

/-! # Raw data

The values of a plot are kept in cycles, each with a store for every dimension.  A cycle
has no limit for its dimensions here, and memory is always granted.  Values are vectors of a
scalar type; what there is of a vector without memory is zero.
-/

namespace Mpt.Plot.Raw

/-- Values from an offset on are replaced, behind the end after as many zeros as are missing. -/
def overwrite (zero : α) (old : List α) (off : Nat) (new : List α) : List α :=
  old.take off ++ List.replicate (off - old.length) zero ++ new ++ old.drop (off + new.length)

/-- `struct value_store`: the type of its content and the used bytes, when it has a buffer. -/
structure ValueStore where
  data : Option (Nat × List Byte)

/-- `struct rawdata_stage` -/
abbrev Stage := List ValueStore

/-- The buffer with all cycles; one that was made by `mpt_array_append` has no traits. -/
structure Cycles where
  typed : Bool
  stages : List Stage

structure RawData where
  st : Option Cycles
  act : Nat
  max : Nat

/-- The cycles that there are. -/
def RawData.stages (rd : RawData) : List Stage := (rd.st.map Cycles.stages).getD []

/-- `mpt_rawdata_create`: a limit below zero is none. -/
def rawdataCreate (max : Int) : RawData := ⟨none, 0, max.toNat⟩

/-- The size of the values of a scalar type. -/
def scalarSize (type : Nat) : Option Nat :=
  (Types.scalarSizes.find? fun p => p.1 = type).map Prod.snd

/-- `mpt_buffer_set` for a type without functions: its end is aligned first. -/
def bufferSet (content : List Byte) (size pos : Nat) (data : List Byte) : List Byte :=
  overwrite 0 (content.take (content.length - content.length % size)) pos data

/-- `mpt_array_set` -/
def arraySet (d : Option (Nat × List Byte)) (type size : Nat) (data : List Byte) (off : Nat) :
    Option (Nat × List Byte) :=
  -- avoid incomplete element assignments
  if data.length % size ≠ 0 then
    none
  else
    match d with
    | none => some (type, bufferSet [] size (off * size) data)
    | some (old, content) =>
        if old ≠ type then none else some (type, bufferSet content size (off * size) data)

/-- The size of a value store. -/
def storeSize : Nat := 16

/-- `mpt_stage_data`: the size of all dimensions is an `unsigned`. -/
def stageData (st : Stage) (dim : Nat) : Option Stage :=
  if dim < st.length then some st
  else if 2 ^ 32 ≤ (dim + 1) * storeSize then none
  else some (st ++ List.replicate (dim + 1 - st.length) ⟨none⟩)

/-- `mpt_array_slice` of one cycle: those that are missing are made. -/
def stageSlice (stages : List Stage) (nc : Nat) : List Stage :=
  stages ++ List.replicate (nc + 1 - stages.length) []

/-- A vector of scalar values. -/
structure Values where
  type : Nat
  data : List Byte

/-- `struct valdest` -/
structure ValDest where
  cycle : UInt32
  offset : UInt32

inductive RawError where
  | badType
  | badValue
  | badOperation
  deriving Repr, DecidableEq

/-- `rd_modify` -/
def rdModify (rd : RawData) (dim : UInt32) (val : Values) (vd : ValDest) : RawData × Option RawError :=
  match scalarSize val.type with
  | none => (rd, some .badType)
  | some size =>
      -- determine target stage by cycle offset
      let nc := if vd.cycle = 0 then rd.act % 2 ^ 32 else vd.cycle.toNat
      -- hard limit on cycle count, or no holes in cycles
      if (if rd.max ≠ 0 then rd.max ≤ nc else rd.stages.length < nc) then
        (rd, some .badValue)
      else
        let typed := (rd.st.map Cycles.typed).getD true
        let stages := stageSlice rd.stages nc
        match stageData (stages.getD nc []) dim.toNat with
        | none => ({ rd with st := some ⟨typed, stages⟩ }, some .badOperation)
        | some stage =>
            match arraySet (stage.getD dim.toNat ⟨none⟩).data val.type size val.data vd.offset.toNat with
            | none => ({ rd with st := some ⟨typed, stages.set nc stage⟩ }, some .badOperation)
            | some d =>
                ({ rd with st := some ⟨typed, stages.set nc (stage.set dim.toNat ⟨some d⟩)⟩ }, none)

/-- The cycle behind the current one. -/
def nextCycle (act max : Nat) : Nat := if act + 1 < max then act + 1 else 0

/-- An `int` for a number of 64 bits. -/
def int32 (n : Nat) : Int := ((n + 2 ^ 31) % 2 ^ 32 : Nat) - 2 ^ 31

/-- `rd_advance` -/
def rdAdvance (rd : RawData) : RawData × Int :=
  let act := nextCycle rd.act rd.max
  match rd.st with
  | none => ({ rd with st := some ⟨false, [[]]⟩, act := act }, int32 act)
  | some c =>
      -- reuse existing cycle
      if act < c.stages.length then
        (rd, int32 act)
      else
        -- `mpt_array_append` is for buffers without traits only
        if c.typed then
          (rd, 0)
        else
          ({ rd with st := some ⟨c.typed, c.stages ++ [[]]⟩, act := act }, int32 act)

/-- What is told about a store. -/
inductive RawValues where
  | nothing
  | store (data : Option (Nat × List Byte))
  /-- memory before the first cycle was examined -/
  | outside
  deriving Repr, DecidableEq

/-- `rd_values` -/
def rdValues (rd : RawData) (dim : UInt32) (nc : Int) : RawData × RawValues :=
  match rd.st with
  | none => (rd, .nothing)
  | some c =>
      let nc := if nc < 0 then int32 rd.act else nc
      -- cycle does not exist
      if int32 c.stages.length ≤ nc then
        (rd, .nothing)
      else
        if nc < 0 then
          (rd, .outside)
        else
          match stageData (c.stages.getD nc.toNat []) dim.toNat with
          | none => (rd, .nothing)
          | some stage =>
              ({ rd with st := some { c with stages := c.stages.set nc.toNat stage } },
                .store (stage.getD dim.toNat ⟨none⟩).data)

/-- `rd_dimensions` -/
def rdDimensions (rd : RawData) (part : Int) : Except RawError Int :=
  match rd.st with
  | none => .error .badOperation
  | some c =>
      let part := if part < 0 then int32 rd.act else part
      if int32 c.stages.length ≤ part then .error .badValue
      else .ok (int32 (c.stages.getD part.toNat []).length)

/-- `rd_stages` -/
def rdStages (rd : RawData) : Int := int32 rd.stages.length

/-! ## A table of values -/

/-- A cell has elements of one type. -/
structure Cell where
  type : Nat
  elements : List (List Byte)

/-- The values of all cycles and dimensions, how many cycles there are, and how many
    dimensions each of them has. -/
structure Table where
  act : Nat
  max : Nat
  count : Nat
  dims : Nat → Nat
  cell : Nat → Nat → Option Cell

def Table.empty (max : Int) : Table := ⟨0, max.toNat, 0, fun _ => 0, fun _ _ => none⟩

/-- The elements of a vector. -/
def elements (size : Nat) : (count : Nat) → List Byte → List (List Byte)
  | 0, _ => []
  | count + 1, data => data.take size :: elements size count (data.drop size)

/-- The elements in a cell, when they can be of the type. -/
def ofType (type : Nat) : Option Cell → Option (List (List Byte))
  | none => some []
  | some cell => if cell.type = type then some cell.elements else none

/-- A dimension is there or can be made. -/
def hasRoom (dims dim : Nat) : Prop := dim < dims ∨ (dim + 1) * storeSize < 2 ^ 32

instance (dims dim : Nat) : Decidable (hasRoom dims dim) := inferInstanceAs (Decidable (_ ∨ _))

/-- One more dimension of a cycle, with all before it. -/
def Table.extend (t : Table) (nc dim : Nat) : Table :=
  { t with dims := Function.update t.dims nc (Nat.max (t.dims nc) (dim + 1)) }

/-- The elements of one cell are replaced from the offset on; others are as before. -/
def Table.modify (t : Table) (dim : Nat) (val : Values) (cycle offset : Nat) : Table × Option RawError :=
  match scalarSize val.type with
  | none => (t, some .badType)
  | some size =>
      let nc := if cycle = 0 then t.act else cycle
      if (if t.max ≠ 0 then t.max ≤ nc else t.count < nc) then
        (t, some .badValue)
      else
        let t := { t with count := Nat.max t.count (nc + 1) }
        if hasRoom (t.dims nc) dim then
          let t := t.extend nc dim
          match ofType val.type (t.cell nc dim) with
          | none => (t, some .badOperation)
          | some old =>
              if val.data.length % size ≠ 0 then
                (t, some .badOperation)
              else
                let new := overwrite (List.replicate size 0) old offset
                  (elements size (val.data.length / size) val.data)
                let row := Function.update (t.cell nc) dim (some ⟨val.type, new⟩)
                ({ t with cell := Function.update t.cell nc row }, none)
        else
          (t, some .badOperation)

/-- The next cycle is the current one, and is made when it is not there. -/
def Table.advance (t : Table) : Table × Int :=
  let act := nextCycle t.act t.max
  ({ t with act := act, count := if act < t.count then t.count else t.count + 1 }, act)

/-- The data of a cell, all elements one behind the other. -/
def Cell.data (cell : Cell) : Nat × List Byte := (cell.type, cell.elements.flatten)

/-- The values of a dimension, which is made when it is not there. -/
def Table.values (t : Table) (dim : Nat) (nc : Int) : Table × RawValues :=
  let nc := if nc < 0 then t.act else nc.toNat
  if t.count ≤ nc then
    (t, .nothing)
  else
    if hasRoom (t.dims nc) dim then
      (t.extend nc dim, .store ((t.cell nc dim).map Cell.data))
    else
      (t, .nothing)

/-- How many dimensions a cycle has. -/
def Table.dimensions (t : Table) (part : Int) : Except RawError Int :=
  let nc := if part < 0 then t.act else part.toNat
  if t.count = 0 then .error .badOperation
  else if t.count ≤ nc then .error .badValue
  else .ok (t.dims nc)

/-! ## Calls -/

inductive RawCall where
  | modify (dim : UInt32) (val : Values) (vd : ValDest)
  | advance
  | values (dim : UInt32) (nc : Int)
  | dimensions (part : Int)
  | stages

inductive RawAnswer where
  | modified (error : Option RawError)
  | advanced (cycle : Int)
  | values (values : RawValues)
  | dimensions (count : Except RawError Int)
  | stages (count : Int)
  deriving DecidableEq

/-- The calls on raw data. -/
def rawCalls : Machine RawData RawCall RawAnswer where
  step rd call :=
    match call with
    | .modify dim val vd => ((rdModify rd dim val vd).1, .modified (rdModify rd dim val vd).2)
    | .advance => ((rdAdvance rd).1, .advanced (rdAdvance rd).2)
    | .values dim nc => ((rdValues rd dim nc).1, .values (rdValues rd dim nc).2)
    | .dimensions part => (rd, .dimensions (rdDimensions rd part))
    | .stages => (rd, .stages (rdStages rd))

/-- The calls on a table. -/
def tableCalls : Machine Table RawCall RawAnswer where
  step t call :=
    match call with
    | .modify dim val vd =>
        let (t, error) := t.modify dim.toNat val vd.cycle.toNat vd.offset.toNat
        (t, .modified error)
    | .advance =>
        let (t, act) := t.advance
        (t, .advanced act)
    | .values dim nc =>
        let (t, found) := t.values dim.toNat nc
        (t, .values found)
    | .dimensions part => (t, .dimensions (t.dimensions part))
    | .stages => (t, .stages t.count)

end Mpt.Plot.Raw
