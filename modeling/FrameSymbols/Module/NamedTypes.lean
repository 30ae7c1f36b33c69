/-
Finding the type that a serialized name refers to.

The name has to stay in the module: its assembly, if given, is that of the module, and it has no decorations. The top-level
type is looked up in an index that has the first row of each namespace and name, and each nested type is the first one in
its type with the name; rows that cannot be decoded are passed over. Generic arguments that can be found make an instance.
If one of them cannot, the definition is the answer.
-/
import FrameSymbols.Module
import FrameSymbols.TypeName.Parse

namespace FrameSymbols.LoadedModule

/-- the rows of the top-level types, by namespace and name -/
abbrev TopLevelIndex := Std.TreeMap (String × String) UInt32 lexOrd.compare

/-- enters the row of a top-level type into an index, unless there is one of its name already -/
def indexRow (reader : Reader) (index : TopLevelIndex) (row : UInt32) : TopLevelIndex :=
  match reader.encloser row, reader.typeRow row with
  | none, .ok typeRow => index.insertIfNew (typeRow.space, typeRow.name) row
  | _, _ => index

/-- enters `count` rows from `row` on into an index -/
def indexRows (reader : Reader) (index : TopLevelIndex) (row : UInt32) : Nat → TopLevelIndex
  | 0 => index
  | count + 1 => indexRows reader (indexRow reader index row) (row + 1) count

/-- the top-level types of the table, entered in one pass -/
def topLevelIndex (reader : Reader) : TopLevelIndex := indexRows reader ∅ 1 (reader.rowCount .typeDef).toNat

def topLevelRow (m : LoadedModule) (space name : String) : Option UInt32 := (topLevelIndex m.reader)[(space, name)]?

/-- whether a row can be decoded and has the metadata name -/
def isNamed (reader : Reader) (name : String) (row : UInt32) : Bool :=
  match reader.typeRow row with
  | .ok typeRow => typeRow.name == name
  | .error _ => false

/-- the row that is reached from a row by the names of nested types -/
def nestedRow (reader : Reader) (row : UInt32) : List String → Option UInt32
  | [] => some row
  | name :: names => do
    let inner ← (reader.nestedIn row).find? (isNamed reader name)
    nestedRow reader inner names

def rowNamed (m : LoadedModule) (n : TypeName) : Option UInt32 :=
  if n.assemblySimpleName.all (Text.sameIgnoringCase · m.assemblyName) && n.suffixes.isEmpty then do
    nestedRow m.reader (← m.topLevelRow n.space n.top) n.nested
  else none

mutual

/-- the type that a parsed name refers to, or nothing if the module has none -/
def typeNamed (m : LoadedModule) : TypeName → Query (Option TypeSymbol)
  | ⟨space, top, nested, args, suffixes, assembly⟩ => do
    match m.rowNamed ⟨space, top, nested, args, suffixes, assembly⟩ with
    | none => return none
    | some row =>
      let definition ← m.typeOfRow row
      match args with
      | [] => return some definition
      | arg :: more =>
        match ← typesNamed m (arg :: more) with
        | none => return some definition
        | some found => return some ((definition.construct found).toOption.getD definition)

/-- the types that all of several names refer to, or nothing from the first one on that refers to none -/
def typesNamed (m : LoadedModule) : List TypeName → Query (Option (List TypeSymbol))
  | [] => return some []
  | n :: ns => do
    match ← Action.toOption (typeNamed m n) with
    | some (some t) => return (← typesNamed m ns).map (t :: ·)
    | _ => return none

end

def typeForName (m : LoadedModule) (text : String) : Query TypeSymbol := do
  let n ← TypeName.parse text
  match ← m.typeNamed n with
  | some t => return t
  | none => throw (.typeNotFound text)

end FrameSymbols.LoadedModule
