/-
Metadata tokens and the tables they select.

A token is a 32-bit word: the selector of a table in the high octet and a 1-based row in the low 24 bits. A row that
needs more than 24 bits loses its high bits when it is put into a token (`row_ofParts`).
-/
import FrameSymbols.Text.Hex

namespace FrameSymbols

/-- the metadata tables known to the resolver -/
inductive TableId where
  | module | typeRef | typeDef | field | methodDef | param | memberRef | customAttribute | standAloneSig | typeSpec
  | assembly | assemblyRef | file | exportedType | nestedClass | genericParam | methodSpec
  deriving DecidableEq, Repr

namespace TableId

/-- the tables in the order of their selectors -/
def all : List TableId :=
  [.module, .typeRef, .typeDef, .field, .methodDef, .param, .memberRef, .customAttribute, .standAloneSig, .typeSpec,
    .assembly, .assemblyRef, .file, .exportedType, .nestedClass, .genericParam, .methodSpec]

/-- the octet by which a token selects the table -/
def selector : TableId → UInt8
  | .module => 0x00
  | .typeRef => 0x01
  | .typeDef => 0x02
  | .field => 0x04
  | .methodDef => 0x06
  | .param => 0x08
  | .memberRef => 0x0A
  | .customAttribute => 0x0C
  | .standAloneSig => 0x11
  | .typeSpec => 0x1B
  | .assembly => 0x20
  | .assemblyRef => 0x23
  | .file => 0x26
  | .exportedType => 0x27
  | .nestedClass => 0x29
  | .genericParam => 0x2A
  | .methodSpec => 0x2B

def name : TableId → String
  | .module => "Module"
  | .typeRef => "TypeRef"
  | .typeDef => "TypeDef"
  | .field => "Field"
  | .methodDef => "MethodDef"
  | .param => "Param"
  | .memberRef => "MemberRef"
  | .customAttribute => "CustomAttribute"
  | .standAloneSig => "StandAloneSig"
  | .typeSpec => "TypeSpec"
  | .assembly => "Assembly"
  | .assemblyRef => "AssemblyRef"
  | .file => "File"
  | .exportedType => "ExportedType"
  | .nestedClass => "NestedClass"
  | .genericParam => "GenericParam"
  | .methodSpec => "MethodSpec"

instance : ToString TableId := ⟨name⟩

def ofSelector? (selector : UInt8) : Option TableId := all.find? (·.selector == selector)

@[simp] theorem ofSelector?_selector (t : TableId) : ofSelector? t.selector = some t := by
  cases t <;> rfl

end TableId

/-- a reference to a row of a metadata table, meaningful relative to one module -/
structure Token where
  value : UInt32
  deriving DecidableEq, Repr

namespace Token

/-- one more than the largest row a token can hold -/
def rowLimit : UInt32 := 0x1000000

/-- the selector of the table -/
def table (t : Token) : UInt8 := (t.value / rowLimit).toUInt8

/-- the 1-based row, with 0 for no row -/
def row (t : Token) : UInt32 := t.value % rowLimit

/-- the token of a row of a table; only the low 24 bits of the row are kept -/
def ofParts (table : TableId) (row : UInt32) : Token :=
  ⟨table.selector.toUInt32 * rowLimit + row % rowLimit⟩

/-- the null token selects no row of the first table -/
def isNull (t : Token) : Bool := t.value == 0

/-- the table selected, if the resolver knows it -/
def tableId? (t : Token) : Option TableId := TableId.ofSelector? t.table

def selects (t : Token) (table : TableId) : Bool := t.table == table.selector

/-- the token as a hexadecimal word -/
def text (t : Token) : String := "0x" ++ Hex.text 8 t.value.toNat

def describe (t : Token) : String :=
  s!"Token({text t}, table: 0x" ++ Hex.text 2 t.table.toNat ++ s!", row: {t.row})"

instance : ToString Token := ⟨text⟩

instance : Ord Token := ⟨fun a b => compare a.value b.value⟩

theorem selector_lt (t : TableId) : t.selector.toNat < 0x2C := by
  cases t <;> decide

theorem toNat_value_ofParts (t : TableId) (r : UInt32) :
    (ofParts t r).value.toNat = t.selector.toNat * 0x1000000 + r.toNat % 0x1000000 := by
  have h := selector_lt t
  simp only [ofParts, rowLimit, UInt32.toNat_add, UInt32.toNat_mul, UInt32.toNat_mod, UInt8.toNat_toUInt32,
    UInt32.reduceToNat]
  omega

@[simp] theorem row_ofParts (t : TableId) (r : UInt32) : (ofParts t r).row = r % rowLimit := by
  apply UInt32.toNat_inj.1
  simp only [row, UInt32.toNat_mod, toNat_value_ofParts, rowLimit, UInt32.reduceToNat]
  omega

@[simp] theorem table_ofParts (t : TableId) (r : UInt32) : (ofParts t r).table = t.selector := by
  apply UInt8.toNat_inj.1
  have h := selector_lt t
  simp only [table, UInt32.toNat_toUInt8, UInt32.toNat_div, toNat_value_ofParts, rowLimit, UInt32.reduceToNat]
  omega

end Token

end FrameSymbols
