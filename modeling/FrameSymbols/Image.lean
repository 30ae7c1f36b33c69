/-
Tables held in memory, grown entry by entry.

Entries are added in table order: a method belongs to the type added last, and a nested type comes after the type that
encloses it. An entry that refers to something not there is refused. A complete image can look up by row which type
encloses a type and which attributes are applied to something.
-/
import FrameSymbols.Blob
import FrameSymbols.Tables
import Std.Data.TreeMap

namespace FrameSymbols

/-- the tables of one module -/
structure Image where
  header : ModuleRow
  assembly : Option String
  files : Array String
  types : Array TypeRow
  methods : Array MethodRow
  /-- nested types with the types that enclose them -/
  nesting : Array (UInt32 × UInt32)
  attributes : Array AttributeRow
  deriving DecidableEq, Repr

namespace Image

def empty (name : String) (id : ModuleId) : Image := ⟨⟨name, id⟩, none, #[], #[], #[], #[], #[]⟩

/-- something to add to an image -/
inductive Entry where
  /-- makes the module the manifest module of an assembly -/
  | assembly (name : String)
  /-- lists a netmodule of the assembly -/
  | file (name : String)
  /-- a top-level type -/
  | type (space name : String) (flags : UInt32)
  /-- a type nested in a type added before -/
  | nestedType (encloser : Token) (name : String) (flags : UInt32)
  /-- a method of the type added last -/
  | method (name : String) (flags : UInt32)
  /-- the generic parameters of a type or a method added before -/
  | genericParams (owner : Token) (names : List String)
  /-- an attribute with a text argument -/
  | attribute (parent : Token) (space name : String) (argument : Option String)
  /-- an attribute with the given octets for arguments -/
  | attributeBlob (parent : Token) (space name : String) (value : List UInt8)
  deriving Repr

/-- a call that adds to an image: it answers or fails, and leaves behind the image as it is then -/
abbrev Building := Action Image

/-- the number of elements as a row number -/
def count {α : Type} (rows : Array α) : UInt32 := UInt32.ofNat rows.size

/-- the row of a type added before -/
def typeRowOf (image : Image) (token : Token) : Except Error UInt32 :=
  if token.selects .typeDef ∧ token.row ≠ 0 ∧ token.row.toNat ≤ image.types.size then .ok token.row
  else .error (.malformed (.unknownType token))

/-- adds a type whose methods are those added after it -/
def addType (space name : String) (flags : UInt32) : Building Token := do
  modify fun image => { image with types := image.types.push ⟨flags, name, space, count image.methods + 1, []⟩ }
  return .ofParts .typeDef (count (← get).types)

/-- adds a type nested in a type added before -/
def addNestedType (encloser : Token) (name : String) (flags : UInt32) : Building Token := do
  let row ← (← get).typeRowOf encloser
  let token ← addType "" name flags
  modify fun image => { image with nesting := image.nesting.push (token.row, row) }
  return token

/-- adds a method of the type added last -/
def addMethod (name : String) (flags : UInt32) : Building Token := do
  if (← get).types.isEmpty then throw (.malformed .methodWithoutType)
  else
    modify fun image => { image with methods := image.methods.push ⟨flags, name, []⟩ }
    return .ofParts .methodDef (count (← get).methods)

def setGenericParams (owner : Token) (names : List String) : Building Unit := do
  let image ← get
  if owner.selects .methodDef then
    if owner.row ≠ 0 ∧ owner.row.toNat ≤ image.methods.size then
      set { image with methods := image.methods.modify (owner.row.toNat - 1) ({ · with genericParams := names }) }
    else throw (.malformed (.unknownMethod owner))
  else
    let row ← image.typeRowOf owner
    set { image with types := image.types.modify (row.toNat - 1) ({ · with genericParams := names }) }

def addAttribute (row : AttributeRow) : Building Unit :=
  modify fun image => { image with attributes := image.attributes.push row }

/-- adds an entry; types and methods get a token -/
def add : Entry → Building (Option Token)
  | .assembly name => do
    modify ({ · with assembly := some name })
    return none
  | .file name => do
    modify fun image => { image with files := image.files.push name }
    return none
  | .type space name flags => some <$> addType space name flags
  | .nestedType encloser name flags => some <$> addNestedType encloser name flags
  | .method name flags => some <$> addMethod name flags
  | .genericParams owner names => do
    setGenericParams owner names
    return none
  | .attribute parent space name argument => do
    let value ← Blob.ofArgument argument
    addAttribute ⟨parent, space, name, value⟩
    return none
  | .attributeBlob parent space name value => do
    addAttribute ⟨parent, space, name, value⟩
    return none

/-- the image after a call, and the answer of the call -/
def step (image : Image) (entry : Entry) : Image × Except Error (Option Token) := ((add entry).runFrom image).swap

def addAll (image : Image) : List Entry → Image × List (Except Error (Option Token))
  | [] => (image, [])
  | entry :: entries =>
    let (image, result) := image.step entry
    let (image, results) := image.addAll entries
    (image, result :: results)

/-- a row of a table that is held as an array -/
def rowOf {α : Type} (table : TableId) (rows : Array α) (row : UInt32) : Except Error α :=
  if row = 0 then .error (.malformed (.rowZero table))
  else match rows[row.toNat - 1]? with
    | some a => .ok a
    | none => .error (.malformed (.rowMissing table row rows.size))

/-- the number of rows of each table; tables that the image does not hold are empty -/
def rowCount (image : Image) : TableId → UInt32
  | .module => 1
  | .typeDef => count image.types
  | .methodDef => count image.methods
  | .nestedClass => count image.nesting
  | .customAttribute => count image.attributes
  | .assembly => if image.assembly.isSome then 1 else 0
  | .file => count image.files
  | _ => 0

end Image

/-- an image that is complete, with what is looked up by row -/
structure CompleteImage extends Image where
  /-- which type encloses a type -/
  enclosers : Std.TreeMap UInt32 UInt32
  /-- the attributes applied to something, by the word of its token -/
  applied : Std.TreeMap UInt32 (Array AttributeRow)

namespace Image

/-- records which type encloses a type; what is recorded last counts -/
def keepEncloser (enclosers : Std.TreeMap UInt32 UInt32) (entry : UInt32 × UInt32) : Std.TreeMap UInt32 UInt32 :=
  enclosers.insert entry.1 entry.2

/-- adds an attribute to those of its parent -/
def keepApplied (applied : Std.TreeMap UInt32 (Array AttributeRow)) (row : AttributeRow) :
    Std.TreeMap UInt32 (Array AttributeRow) :=
  applied.insert row.parent.value ((applied.getD row.parent.value #[]).push row)

def build (image : Image) : CompleteImage :=
  { image with
    enclosers := image.nesting.foldl keepEncloser {}
    applied := image.attributes.foldl keepApplied {} }

end Image

namespace CompleteImage

def tables (image : CompleteImage) : Tables where
  header := .ok image.header
  assembly := image.assembly
  files := image.files.toList
  rowCount := image.rowCount
  typeRow := Image.rowOf .typeDef image.types
  methodRow := Image.rowOf .methodDef image.methods
  encloser row := image.enclosers[row]?
  nestedIn row := (image.nesting.toList.filter (·.2 == row)).map (·.1)
  attributes parent := (image.applied.getD parent.value #[]).toList

end CompleteImage

namespace Image

/-- the rows of the image once it is complete -/
def tables (image : Image) : Tables := image.build.tables

def reader (image : Image) : Reader := image.tables.reader

end Image

end FrameSymbols
