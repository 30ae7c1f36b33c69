/-
What can go wrong when a token, a name or a blob is resolved.

Every failure is a cause with the data it is about; `Error.message` holds the wording. Damaged tables, names and blobs
have causes of their own (`Malformed`).
-/
import FrameSymbols.ModuleId
import FrameSymbols.Text.Utf8
import FrameSymbols.Token
import FrameSymbols.TypeName

namespace FrameSymbols

/-- the kind of symbol that a token was asked for -/
inductive SymbolKind where
  | type | method
  /-- either of them -/
  | typeOrMethod
  deriving DecidableEq, Repr

def SymbolKind.name : SymbolKind → String
  | .type => "Type"
  | .method => "Method"
  | .typeOrMethod => "Type or Method"

instance : ToString SymbolKind := ⟨SymbolKind.name⟩

/-- how tables, names and blobs can be damaged -/
inductive Malformed where
  /-- no table has this selector -/
  | unknownTable (selector : UInt8)
  /-- the text is not the text form of a module id -/
  | moduleId (text : String) (fault : ModuleId.TextFault)
  /-- the text is no type name -/
  | typeName (text : String) (fault : TypeName.Fault)
  /-- no compressed integer starts with this octet -/
  | compressedLead (lead : UInt8)
  /-- the value needs more bits than a compressed integer has -/
  | uncompressible (value : Nat)
  /-- the octets of a string argument are not text -/
  | argumentText (start length : Nat) (fault : Utf8.Fault)
  /-- an attribute blob starts with this word -/
  | prolog (found : UInt16)
  /-- row 0 of a table was asked for -/
  | rowZero (table : TableId)
  /-- a row past the end of a table was asked for -/
  | rowMissing (table : TableId) (row : UInt32) (rows : Nat)
  /-- the token is not that of a type added before -/
  | unknownType (token : Token)
  /-- the token is not that of a method added before -/
  | unknownMethod (token : Token)
  /-- a method was added before any type -/
  | methodWithoutType
  /-- the run of methods of a type starts after that of the next type -/
  | descendingRuns (row start stop : UInt32)
  /-- the method has no row -/
  | methodMissing (row rows : UInt32)
  /-- the method comes before the run of the first type -/
  | methodUnowned (row : UInt32)
  /-- the enclosing type of a type has no row -/
  | encloserMissing (row encloser : UInt32)
  /-- the row of a symbol belongs to another table -/
  | foreignTable (token : Token) (table : TableId)
  /-- a symbol of this origin has no row at all -/
  | noRow (origin : String)
  /-- a type with so many parameters was given so many arguments -/
  | arity (type : String) (takes given : Nat)
  /-- the method is not a member of the type -/
  | notMember (method type : String)
  /-- damage described by whoever decoded the row -/
  | reported (message : String)
  deriving DecidableEq, Repr

def Malformed.message : Malformed → String
  | .unknownTable selector => "Unknown table id - 0x" ++ Hex.text 2 selector.toNat
  | .moduleId text fault => s!"Invalid MVID '{text}' - {fault}"
  | .typeName text fault => fault.message text
  | .compressedLead lead => s!"Invalid compressed uint - {lead}"
  | .uncompressible value => s!"Value too large to compress - {value}"
  | .argumentText start length fault => s!"Invalid UTF-8 SerString at offset {start}-{start + length}: {fault}"
  | .prolog found => "Invalid custom attribute prolog - expected 0x0001, got 0x" ++ Hex.text 4 found.toNat
  | .rowZero table => s!"Row 0 of table {table} requested"
  | .rowMissing table row rows => s!"Row {row} of table {table} requested - table has {rows} rows"
  | .unknownType token => s!"Unknown type - {token}"
  | .unknownMethod token => s!"Unknown method - {token}"
  | .methodWithoutType => "A method requires a declaring type"
  | .descendingRuns row start stop => s!"TypeDef {row} has a method list ({start}) past its successor's ({stop})"
  | .methodMissing row rows => s!"MethodDef {row} does not exist - table has {rows} rows"
  | .methodUnowned row => s!"MethodDef {row} is not owned by any TypeDef"
  | .encloserMissing row encloser => s!"TypeDef {row} is nested in missing TypeDef {encloser}"
  | .foreignTable token table => s!"Token {token} does not belong to table {table}"
  | .noRow origin => s!"Symbol with origin {origin} has no metadata row"
  | .arity type takes given => s!"Type {type} takes {takes} generic arguments, {given} given"
  | .notMember method type => s!"Method {method} is not a member of {type}"
  | .reported message => message

/-- why a query has no answer -/
inductive Error where
  /-- no module with this id is loaded -/
  | moduleNotFound (id : ModuleId)
  /-- the token selects another table than that of the kind asked for -/
  | tokenKindMismatch (token : Token) (expected : SymbolKind)
  /-- the row of the token is not in its table -/
  | rowOutOfRange (token : Token) (rows : UInt32)
  /-- a symbol of one module was handed to another -/
  | moduleMismatch (expected actual : ModuleId)
  /-- the module has no type of this serialized name -/
  | typeNotFound (name : String)
  /-- types are nested more than this many levels deep -/
  | recursionLimit (levels : Nat)
  /-- tables, a name or a blob are damaged -/
  | malformed (damage : Malformed)
  /-- a blob ends too early -/
  | outOfBounds
  deriving DecidableEq, Repr

/-- the wording of an error; a blob that ends too early has none of its own -/
def Error.message? : Error → Option String
  | .moduleNotFound id => some s!"No module found with MVID '{id}'"
  | .tokenKindMismatch token expected => some s!"Token {token} does not reference a {expected} definition"
  | .rowOutOfRange token rows => some s!"Token {token} is out of range - table has {rows} rows"
  | .moduleMismatch expected actual => some s!"Symbol belongs to module '{actual}', not to module '{expected}'"
  | .typeNotFound name => some s!"Failed to resolve serialized type name '{name}'"
  | .recursionLimit levels => some s!"Reach the maximum recursion level allowed - {levels}"
  | .malformed damage => some damage.message
  | .outOfBounds => none

def TableId.ofSelector (selector : UInt8) : Except Error TableId :=
  match ofSelector? selector with
  | some table => .ok table
  | none => .error (.malformed (.unknownTable selector))

end FrameSymbols
