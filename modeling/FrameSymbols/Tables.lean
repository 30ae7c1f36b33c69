/-
What a host tells about one module: the rows of its metadata tables.

Rows are numbered from 1. A host may answer anything; the queries of the resolver check what they rely on. Besides the
rows, a reader says which methods a type owns and which type owns a method; `Tables.reader` derives both from the rows.
-/
import FrameSymbols.Error

namespace FrameSymbols

/-- the row that identifies the module -/
structure ModuleRow where
  /-- the file name -/
  name : String
  id : ModuleId
  deriving DecidableEq, Repr

structure TypeRow where
  flags : UInt32
  /-- the metadata name, with its arity marker -/
  name : String
  /-- the namespace, empty for nested types and for the global one -/
  space : String
  /-- the first row of the run of methods that the type owns -/
  methodList : UInt32
  genericParams : List String
  deriving DecidableEq, Repr

structure MethodRow where
  flags : UInt32
  name : String
  genericParams : List String
  deriving DecidableEq, Repr

structure AttributeRow where
  /-- what the attribute is applied to -/
  parent : Token
  /-- the namespace of the type of the attribute -/
  space : String
  /-- the type of the attribute -/
  name : String
  /-- the arguments -/
  value : List UInt8
  deriving DecidableEq, Repr

/-- a run of rows, from `start` up to but not including `stop` -/
structure RowRange where
  start : UInt32
  stop : UInt32
  deriving DecidableEq, Repr

def RowRange.size (r : RowRange) : Nat := r.stop.toNat - r.start.toNat

/-- the rows of one module -/
structure Tables where
  header : Except Error ModuleRow
  /-- the simple name of the assembly, in the module that has its manifest -/
  assembly : Option String
  /-- the files of the other modules of the assembly -/
  files : List String
  rowCount : TableId → UInt32
  typeRow : UInt32 → Except Error TypeRow
  methodRow : UInt32 → Except Error MethodRow
  /-- the type in which a type is nested -/
  encloser : UInt32 → Option UInt32
  /-- the types nested in a type, in table order -/
  nestedIn : UInt32 → List UInt32
  /-- the attributes applied to a row, in table order -/
  attributes : Token → List AttributeRow

namespace Tables

/-- the methods that a type owns: from its own list up to that of the next type, or up to the end of the table -/
def methodRun (t : Tables) (row : UInt32) : Except Error RowRange := do
  let start := (← t.typeRow row).methodList
  let stop ←
    if row < t.rowCount .typeDef then (·.methodList) <$> t.typeRow (row + 1)
    else pure (t.rowCount .methodDef + 1)
  if stop < start then .error (.malformed (.descendingRuns row start stop)) else .ok ⟨start, stop⟩

def midpoint (low high : UInt32) : UInt32 := low + (high - low) / 2

theorem toNat_midpoint {low high : UInt32} (h : low < high) :
    (midpoint low high).toNat = low.toNat + (high.toNat - low.toNat) / 2 := by
  have hl : low.toNat < high.toNat := UInt32.lt_iff_toNat_lt.1 h
  have hh := high.toNat_lt
  have hs : (high - low).toNat = high.toNat - low.toNat := UInt32.toNat_sub_of_le _ _ (Nat.le_of_lt hl)
  simp only [midpoint, UInt32.toNat_add, UInt32.toNat_div, hs, UInt32.reduceToNat]
  omega

theorem toNat_midpoint_succ {low high : UInt32} (h : low < high) :
    (midpoint low high + 1).toNat = low.toNat + (high.toNat - low.toNat) / 2 + 1 := by
  have hl : low.toNat < high.toNat := UInt32.lt_iff_toNat_lt.1 h
  have hh := high.toNat_lt
  simp only [UInt32.toNat_add, toNat_midpoint h, UInt32.reduceToNat]
  omega

/-- how many types start their run at or before a method: at least `low`, at most `high` -/
def startedBy (t : Tables) (method low high : UInt32) : Except Error UInt32 :=
  if h : low < high then do
    let row ← t.typeRow (midpoint low high + 1)
    if row.methodList ≤ method then startedBy t method (midpoint low high + 1) high
    else startedBy t method low (midpoint low high)
  else .ok low
  termination_by high.toNat - low.toNat
  decreasing_by
    · have := UInt32.lt_iff_toNat_lt.1 h
      have := toNat_midpoint_succ h
      omega
    · have := UInt32.lt_iff_toNat_lt.1 h
      have := toNat_midpoint h
      omega

/-- the type that owns a method: the last one whose run starts at or before it -/
def owner (t : Tables) (method : UInt32) : Except Error UInt32 := do
  let count := t.rowCount .methodDef
  if method = 0 ∨ count < method then .error (.malformed (.methodMissing method count))
  else
    let last ← t.startedBy method 0 (t.rowCount .typeDef)
    if last = 0 then .error (.malformed (.methodUnowned method)) else .ok last

end Tables

/-- the rows of one module, and who owns which methods -/
structure Reader extends Tables where
  /-- the methods that a type owns -/
  methodsOf : UInt32 → Except Error RowRange
  /-- the type that owns a method -/
  ownerOf : UInt32 → Except Error UInt32

/-- the reader that takes ownership from the rows -/
def Tables.reader (t : Tables) : Reader := { t with methodsOf := t.methodRun, ownerOf := t.owner }

/-- the reader named by its module, as a list of blocks shows it -/
def Reader.describe (r : Reader) : String :=
  match r.header with
  | .ok row => s!"MetadataBlock({row.name}, {row.id})"
  | .error _ => "MetadataBlock(<undecodable>)"

end FrameSymbols
