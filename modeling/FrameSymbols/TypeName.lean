/-
Serialized type names: how an attribute blob refers to a type.

A name is a namespace, the top-level type, the nested types on the way in, generic arguments, decorations such as array
ranks, and the assembly that defines the type.
-/
import FrameSymbols.Text.Blank

namespace FrameSymbols

/-- a decoration after a type name -/
inductive TypeName.Suffix where
  | pointer
  | byRef
  /-- a one-dimensional array with lower bound 0 -/
  | vector
  /-- an array of the given number of dimensions -/
  | array (rank : UInt32)
  deriving DecidableEq, Repr

/-- a parsed type name -/
structure TypeName where
  /-- the namespace of the top-level type, empty for the global one -/
  space : String
  /-- the top-level type -/
  top : String
  /-- the nested types, outermost first -/
  nested : List String
  /-- the generic arguments -/
  args : List TypeName
  /-- the decorations, in the order in which they are applied -/
  suffixes : List TypeName.Suffix
  /-- the display name of the defining assembly, if given -/
  assembly : Option String
  deriving Repr

namespace TypeName

/-- the simple name of the defining assembly, if given -/
def assemblySimpleName (n : TypeName) : Option String := n.assembly.map Text.beforeComma

/-- what is wrong with the text of a type name -/
inductive Cause where
  | unexpected
  | emptyAssembly
  | endsInSeparator
  | missingBracket
  | unterminatedArguments
  | unterminatedRank
  | danglingEscape
  | emptyName
  deriving DecidableEq, Repr

/-- a cause, where it was noticed, and the character found there -/
structure Fault where
  cause : Cause
  offset : Nat
  found : Option Char
  deriving DecidableEq, Repr

def Fault.message (text : String) (f : Fault) : String :=
  let offset := f.offset
  let found := String.ofList f.found.toList
  match f.cause with
  | .unexpected => s!"Unexpected '{found}' at offset {offset} in type name '{text}'"
  | .emptyAssembly => s!"Empty assembly name at offset {offset}"
  | .endsInSeparator => s!"Type name ends in a namespace separator at offset {offset}"
  | .missingBracket =>
    if f.found.isSome then s!"Expected ']' at offset {offset}, found '{found}'"
    else s!"Expected ']' at offset {offset}, found end of name"
  | .unterminatedArguments => s!"Unterminated generic argument list at offset {offset}"
  | .unterminatedRank => s!"Unterminated array rank at offset {offset}"
  | .danglingEscape => "Dangling escape at the end of a type name"
  | .emptyName => s!"Empty type name at offset {offset}"

end TypeName

end FrameSymbols
