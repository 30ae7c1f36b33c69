/-
The view of one loaded module, and how its rows become symbols.

A type is decoded together with the types that enclose it, and the walk outwards ends at the first one that is
remembered. A walk of more than `maxNesting` steps is given up, which is how a cycle is noticed.
-/
import FrameSymbols.Memory

namespace FrameSymbols

/-- the longest walk over enclosing types -/
def maxNesting : Nat := 64

/-- the view of one module -/
structure LoadedModule where
  reader : Reader
  id : ModuleId
  /-- the file name -/
  name : String
  /-- the assembly that the module belongs to -/
  assemblyName : String
  /-- whether the module has the manifest of its assembly -/
  isManifest : Bool
  importLevel : ImportLevel

namespace LoadedModule

/-- the view of the module with the given identifying row; a netmodule stands for its assembly until it is attached -/
def ofHeader (reader : Reader) (row : ModuleRow) (importLevel : ImportLevel) : LoadedModule where
  reader := reader
  id := row.id
  name := row.name
  assemblyName := reader.assembly.getD row.name
  isManifest := reader.assembly.isSome
  importLevel := importLevel

/-- the view of the module behind a reader -/
def load (reader : Reader) (importLevel : ImportLevel) : Except Error LoadedModule := do
  return ofHeader reader (← reader.header) importLevel

def attachTo (m : LoadedModule) (assemblyName : String) : LoadedModule := { m with assemblyName }

def originOf (m : LoadedModule) (token : Token) : Origin := .metadata m.id token

def checkToken (m : LoadedModule) (token : Token) (table : TableId) (expected : SymbolKind) : Except Error Unit :=
  if !token.selects table then .error (.tokenKindMismatch token expected)
  else
    let rows := m.reader.rowCount table
    if token.row = 0 ∨ rows < token.row then .error (.rowOutOfRange token rows) else .ok ()

/-- the row of a symbol of this module that comes from the given table -/
def ownRow (m : LoadedModule) (origin : Origin) (table : TableId) : Except Error UInt32 :=
  match origin with
  | .metadata id token =>
    if id ≠ m.id then .error (.moduleMismatch m.id id)
    else if token.selects table then .ok token.row
    else .error (.malformed (.foreignTable token table))
  | other => .error (.malformed (.noRow other.kind))

/-- remembers a type, unless one is remembered under the same token already, and gives back what is remembered -/
def keepType (token : Token) (t : TypeSymbol) : Query TypeSymbol := do
  let memory ← get
  match memory.type? token with
  | some known => return known
  | none =>
    set (memory.keepType token t)
    return t

/-- the type of a row, with the types that enclose it, in at most `levels` decoded rows -/
def typeSymbol (m : LoadedModule) (levels : Nat) (row : UInt32) : Query TypeSymbol := do
  match levels with
  | 0 => throw (.recursionLimit maxNesting)
  | levels + 1 =>
    let token := Token.ofParts .typeDef row
    match (← get).type? token with
    | some known => return known
    | none =>
      let typeRow ← m.reader.typeRow row
      match m.reader.encloser row with
      | none => keepType token (.ofRow typeRow (m.originOf token) none)
      | some encloser =>
        if encloser = 0 ∨ m.reader.rowCount .typeDef < encloser then
          throw (.malformed (.encloserMissing row encloser))
        else
          let containing ← typeSymbol m levels encloser
          keepType token (.ofRow typeRow (m.originOf token) (some containing))

/-- the type of a row; the type itself and `maxNesting` enclosing types may have to be decoded -/
def typeOfRow (m : LoadedModule) (row : UInt32) : Query TypeSymbol := typeSymbol m (maxNesting + 1) row

def resolveType (m : LoadedModule) (token : Token) : Query TypeSymbol := do
  m.checkToken token .typeDef .type
  m.typeOfRow token.row

/-- the method that a token refers to, as a member of the type that owns it -/
def resolveMethod (m : LoadedModule) (token : Token) : Query MethodSymbol := do
  m.checkToken token .methodDef .method
  match (← get).method? token with
  | some known => return known
  | none =>
    let owner ← m.reader.ownerOf token.row
    let declaring ← m.typeOfRow owner
    let row ← m.reader.methodRow token.row
    let method := MethodSymbol.ofRow row (m.originOf token) declaring
    modify (·.keepMethod token method)
    return method

end LoadedModule

end FrameSymbols
