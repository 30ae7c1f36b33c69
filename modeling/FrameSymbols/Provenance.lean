/-
From the step method of a state machine back to the method that the user wrote.

A compiler turns the body of an iterator or of an asynchronous method into a type nested beside the method; the name of the
type embeds the name of the method, and an attribute of the method names the type. The name only proposes methods. A
candidate counts when its attribute leads back to the type, and without one the method is left as it is.
-/
import FrameSymbols.Blob
import FrameSymbols.GeneratedName
import FrameSymbols.Module.Members
import FrameSymbols.Module.NamedTypes

namespace FrameSymbols

structure AttributeType where
  space : String
  name : String
  deriving DecidableEq, Repr

namespace AttributeType

def asyncStateMachine : AttributeType := ⟨"System.Runtime.CompilerServices", "AsyncStateMachineAttribute"⟩

def iteratorStateMachine : AttributeType := ⟨"System.Runtime.CompilerServices", "IteratorStateMachineAttribute"⟩

/-- whether a row applies an attribute of this type -/
def isOf (a : AttributeType) (row : AttributeRow) : Bool := row.name == a.name && row.space == a.space

/-- the attributes that name a state machine, in the order in which they are asked -/
def stateMachine : List AttributeType := [asyncStateMachine, iteratorStateMachine]

end AttributeType

/-- where a method comes from -/
inductive Provenance where
  /-- the method is no step method and stands for itself -/
  | ordinary (method : MethodSymbol)
  /-- the method that the user wrote -/
  | recovered (method : MethodSymbol)
  /-- the step method itself, since no candidate could be proven -/
  | unproven (method : MethodSymbol)
  /-- the first of so many candidates that were proven -/
  | ambiguous (method : MethodSymbol) (candidates : Nat)
  deriving Repr

namespace Provenance

/-- the method to go on with -/
def method : Provenance → MethodSymbol
  | .ordinary m | .recovered m | .unproven m | .ambiguous m _ => m

def isRecovered : Provenance → Bool
  | .recovered _ | .ambiguous _ _ => true
  | _ => false

/-- the outcome for a step method of which these candidates were proven -/
def ofProven (step : MethodSymbol) : List MethodSymbol → Provenance
  | [] => .unproven step
  | [m] => .recovered m
  | m :: ms => .ambiguous m (ms.length + 1)

end Provenance

namespace LoadedModule

/-- the text argument of the first attribute of a type on a method, or nothing if there is none or it is null -/
def attributeArgument (m : LoadedModule) (method : MethodSymbol) (a : AttributeType) : Except Error (Option String) := do
  let row ← m.ownRow method.origin .methodDef
  match (m.reader.attributes (.ofParts .methodDef row)).find? a.isOf with
  | some applied => Blob.argument applied.value
  | none => .ok none

/-- the name of the state machine that a method declares, by the first attribute that can be read and is not null -/
def declaredName (m : LoadedModule) (method : MethodSymbol) : Option String :=
  AttributeType.stateMachine.findSome? fun a => (m.attributeArgument method a).toOption.join

/-- whether a method declares a type as its state machine -/
def declares (m : LoadedModule) (stateMachine : TypeSymbol) (method : MethodSymbol) : Query Bool := do
  match m.declaredName method with
  | none => return false
  | some name =>
    match ← Action.toOption (m.typeForName name) with
    | none => return false
    | some t => return t.definition.same stateMachine

def declaring (m : LoadedModule) (stateMachine : TypeSymbol) : List MethodSymbol → Query (List MethodSymbol)
  | [] => return []
  | method :: methods => do
    let proven ← m.declares stateMachine method
    let more ← declaring m stateMachine methods
    return if proven then method :: more else more

def methodsAmong (symbols : List Symbol) : List MethodSymbol :=
  symbols.filterMap fun
    | .method m => some m
    | .type _ => none

/-- the name of the method behind a type, if the type is named like a state machine -/
def stepSourceName? (t : TypeSymbol) : Option String :=
  (GeneratedName.sourceName? (some .stateMachineType) t.name.toList).map String.ofList

def provenance (m : LoadedModule) (method : MethodSymbol) : Query Provenance := do
  match method.origin.module?.filter (· != m.id) with
  | some actual => throw (.moduleMismatch m.id actual)
  | none =>
    let stateMachine := method.containing
    match stepSourceName? stateMachine with
    | none => return .ordinary method
    | some name =>
      match stateMachine.containing with
      | none => return .unproven method
      | some outer =>
        match ← Action.toOption (m.members outer name) with
        | none => return .unproven method
        | some symbols => return .ofProven method (← m.declaring stateMachine.definition (methodsAmong symbols))

/-- the method that the user wrote, or the method itself -/
def originalMethod (m : LoadedModule) (method : MethodSymbol) : Query MethodSymbol := do
  return (← m.provenance method).method

end LoadedModule

end FrameSymbols
