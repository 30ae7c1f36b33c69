/-
Types and methods as an expression sees them.

A type symbol is a definition or an instance of a generic definition. An instance has everything from its definition and
arguments of its own, and it is linked to the definition. A method symbol is a definition or that definition viewed as a
member of an instance, and then it is linked to the definition as well. Instances and views are always made of what a
symbol is linked to, so links do not form chains.

Symbols are the same when they come from the same row with the same arguments; symbols that come from no row are
compared by their names and what contains them.
-/
import FrameSymbols.Arity
import FrameSymbols.Tables
import FrameSymbols.Visibility

namespace FrameSymbols

/-- where a symbol comes from -/
inductive Origin where
  /-- a row of a module -/
  | metadata (module : ModuleId) (token : Token)
  /-- source text compiled for the evaluation -/
  | source
  /-- the evaluator itself -/
  | synthetic
  deriving DecidableEq, Repr

namespace Origin

def hasRow : Origin → Bool
  | .metadata _ _ => true
  | _ => false

/-- the module of the row, if there is one -/
def module? : Origin → Option ModuleId
  | .metadata id _ => some id
  | _ => none

def kind : Origin → String
  | .metadata _ _ => "Metadata"
  | .source => "Source"
  | .synthetic => "Synthetic"

end Origin

/-- a type definition, or an instance of one -/
structure TypeSymbol where
  /-- the name with its arity marker -/
  metadataName : String
  space : String
  flags : UInt32
  origin : Origin
  genericParams : List String
  /-- the enclosing type -/
  containing : Option TypeSymbol
  /-- the generic arguments; a definition has none -/
  args : List TypeSymbol
  /-- the definition that an instance was made of -/
  link : Option TypeSymbol
  deriving Repr

namespace TypeSymbol

/-- the definition that a row describes -/
def ofRow (row : TypeRow) (origin : Origin) (containing : Option TypeSymbol) : TypeSymbol :=
  ⟨row.name, row.space, row.flags, origin, row.genericParams, containing, [], none⟩

/-- the name without its arity marker -/
def name (t : TypeSymbol) : String := String.ofList (Arity.strip t.metadataName.toList)

/-- the definition that the symbol is linked to, or the symbol itself -/
def definition (t : TypeSymbol) : TypeSymbol := t.link.getD t

/-- whether the symbol was made of a definition -/
def isInstance (t : TypeSymbol) : Bool := t.link.isSome

/-- whether arguments are missing -/
def isGenericDefinition (t : TypeSymbol) : Bool := !t.genericParams.isEmpty && !t.isInstance

def isNested (t : TypeSymbol) : Bool := t.containing.isSome

/-- the namespace and the enclosing types, down to the name -/
def fullName : TypeSymbol → String
  | ⟨metadataName, space, _, _, _, containing, _, _⟩ =>
    match containing with
    | some outer => outer.fullName ++ "+" ++ metadataName
    | none => if space = "" then metadataName else space ++ "." ++ metadataName

mutual

/-- the full name, with the arguments in brackets -/
def text : TypeSymbol → String
  | ⟨metadataName, space, flags, origin, genericParams, containing, args, link⟩ =>
    let name := fullName ⟨metadataName, space, flags, origin, genericParams, containing, args, link⟩
    match args with
    | [] => name
    | a :: as => name ++ "[" ++ ",".intercalate (text a :: texts as) ++ "]"

def texts : List TypeSymbol → List String
  | [] => []
  | a :: as => text a :: texts as

end

instance : ToString TypeSymbol := ⟨text⟩

/-- puts arguments for the parameters of the definition behind `t` -/
def construct (t : TypeSymbol) (args : List TypeSymbol) : Except Error TypeSymbol :=
  let definition := t.definition
  if definition.genericParams = [] ∨ definition.genericParams.length ≠ args.length then
    .error (.malformed (.arity definition.text definition.genericParams.length args.length))
  else .ok { definition with args, link := some definition }

mutual

/-- whether two symbols stand for the same type -/
def same : TypeSymbol → TypeSymbol → Bool
  | ⟨name, space, _, origin, _, containing, args, _⟩, ⟨name', space', _, origin', _, containing', args', _⟩ =>
    sameArgs args args' &&
      (if origin.hasRow || origin'.hasRow then origin == origin'
      else origin == origin' && name == name' && space == space' && sameContaining containing containing')

/-- whether two lists of arguments are the same one by one -/
def sameArgs : List TypeSymbol → List TypeSymbol → Bool
  | [], [] => true
  | a :: as, b :: bs => same a b && sameArgs as bs
  | _, _ => false

/-- whether two types are nested in the same type, or both in none -/
def sameContaining : Option TypeSymbol → Option TypeSymbol → Bool
  | none, none => true
  | some a, some b => same a b
  | _, _ => false

end

end TypeSymbol

/-- a method definition, or that definition as a member of an instance of its type -/
structure MethodSymbol where
  name : String
  flags : UInt32
  origin : Origin
  genericParams : List String
  /-- the type that the method is a member of -/
  containing : TypeSymbol
  /-- the definition that is viewed as a member of an instance -/
  link : Option MethodSymbol
  deriving Repr

namespace MethodSymbol

/-- the definition that a row describes -/
def ofRow (row : MethodRow) (origin : Origin) (containing : TypeSymbol) : MethodSymbol :=
  ⟨row.name, row.flags, origin, row.genericParams, containing, none⟩

/-- the definition that the symbol is linked to, or the symbol itself -/
def definition (m : MethodSymbol) : MethodSymbol := m.link.getD m

/-- the containing type and the name -/
def text (m : MethodSymbol) : String := m.containing.text ++ "::" ++ m.name

instance : ToString MethodSymbol := ⟨text⟩

/-- the definition behind `m` as a member of `t`, which has to be its type or an instance of that -/
def asMemberOf (m : MethodSymbol) (t : TypeSymbol) : Except Error MethodSymbol :=
  let definition := m.definition
  if t.definition.same definition.containing.definition then
    if t.isInstance then .ok { definition with containing := t, link := some definition } else .ok definition
  else .error (.malformed (.notMember definition.text t.text))

/-- whether two symbols stand for the same method -/
def same (m n : MethodSymbol) : Bool :=
  if m.origin.hasRow || n.origin.hasRow then m.origin == n.origin && m.containing.same n.containing
  else m.origin == n.origin && m.name == n.name && m.containing.same n.containing

end MethodSymbol

inductive Symbol where
  | type (t : TypeSymbol)
  | method (m : MethodSymbol)
  deriving Repr

namespace Symbol

def kind : Symbol → SymbolKind
  | .type _ => .type
  | .method _ => .method

/-- the name without an arity marker -/
def name : Symbol → String
  | .type t => t.name
  | .method m => m.name

def origin : Symbol → Origin
  | .type t => t.origin
  | .method m => m.origin

/-- how the symbol is shown -/
def text : Symbol → String
  | .type t => t.text
  | .method m => m.text

/-- whether two symbols stand for the same type or the same method -/
def same : Symbol → Symbol → Bool
  | .type t, .type u => t.same u
  | .method m, .method n => m.same n
  | _, _ => false

end Symbol

end FrameSymbols
