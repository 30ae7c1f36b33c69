/-
The members of a type that have a given name.

First come the methods, in row order, then the nested types, in table order. Members that the import level hides are left
out. The methods of an instance are members of that instance.
-/
import FrameSymbols.Module

namespace FrameSymbols.LoadedModule

/-- the method of a row, if it has the name and is imported -/
def methodNamed (m : LoadedModule) (t : TypeSymbol) (name : String) (row : UInt32) : Query (Option MethodSymbol) := do
  let methodRow ← m.reader.methodRow row
  if methodRow.name = name ∧ MethodFlags.isImported methodRow.flags m.importLevel then
    let method ← m.resolveMethod (.ofParts .methodDef row)
    if t.isInstance then some <$> method.asMemberOf t else return some method
  else return none

/-- the methods of a name among `count` rows from `row` on -/
def methodsNamed (m : LoadedModule) (t : TypeSymbol) (name : String) (row : UInt32) : Nat → Query (List MethodSymbol)
  | 0 => return []
  | count + 1 => do
    let method ← m.methodNamed t name row
    let more ← methodsNamed m t name (row + 1) count
    return method.toList ++ more

/-- the type of a row, if it has the name and is imported -/
def nestedNamed (m : LoadedModule) (name : String) (row : UInt32) : Query (Option TypeSymbol) := do
  let typeRow ← m.reader.typeRow row
  if TypeFlags.isImported typeRow.flags m.importLevel then
    let nested ← m.typeOfRow row
    return if nested.name = name then some nested else none
  else return none

def nestedTypesNamed (m : LoadedModule) (name : String) : List UInt32 → Query (List TypeSymbol)
  | [] => return []
  | row :: rows => do
    let nested ← m.nestedNamed name row
    let more ← nestedTypesNamed m name rows
    return nested.toList ++ more

def members (m : LoadedModule) (t : TypeSymbol) (name : String) : Query (List Symbol) := do
  let row ← m.ownRow t.origin .typeDef
  let run ← m.reader.methodsOf row
  let methods ← m.methodsNamed t name run.start run.size
  let nested ← m.nestedTypesNamed name (m.reader.nestedIn row)
  return methods.map .method ++ nested.map .type

end FrameSymbols.LoadedModule
