/-
Names that a compiler gives to the helpers it generates.

A generated name is an optional marker, a source name in angle brackets, a character for the kind of helper, and a rest
that only makes the name unique. The source name may hold angle brackets itself, as long as they balance. Helpers that are
types write a hyphen for each dot of the source name.

`append_of_splitAtClose`: nothing is lost where a name is cut at its closing bracket.
-/
namespace FrameSymbols

namespace GeneratedName

/-- what a generated name is the name of -/
inductive Kind where
  | stateMachineStateField | iteratorCurrentBackingField | stateMachineParameterProxyField | thisProxyField
  | hoistedLocalField | reusableHoistedLocalField | displayClassLocalOrField | lambdaCacheField | lambdaMethod
  | lambdaDisplayClass | stateMachineType | fixedBufferField | anonymousType | localFunction | transparentIdentifier
  | anonymousTypeField | autoPropertyBackingField | iteratorCurrentThreadIdField | iteratorFinallyMethod
  | baseMethodWrapper | dynamicCallSiteContainerType | dynamicCallSiteField | hoistedSynthesizedLocalField
  | asyncBuilderField | awaiterField
  deriving DecidableEq, Repr

namespace Kind

/-- each kind with its character and its name -/
def table : List (Kind × Char × String) :=
  [(.stateMachineStateField, '1', "StateMachineStateField"),
    (.iteratorCurrentBackingField, '2', "IteratorCurrentBackingField"),
    (.stateMachineParameterProxyField, '3', "StateMachineParameterProxyField"),
    (.thisProxyField, '4', "ThisProxyField"),
    (.hoistedLocalField, '5', "HoistedLocalField"),
    (.reusableHoistedLocalField, '7', "ReusableHoistedLocalField"),
    (.displayClassLocalOrField, '8', "DisplayClassLocalOrField"),
    (.lambdaCacheField, '9', "LambdaCacheField"),
    (.lambdaMethod, 'b', "LambdaMethod"),
    (.lambdaDisplayClass, 'c', "LambdaDisplayClass"),
    (.stateMachineType, 'd', "StateMachineType"),
    (.fixedBufferField, 'e', "FixedBufferField"),
    (.anonymousType, 'f', "AnonymousType"),
    (.localFunction, 'g', "LocalFunction"),
    (.transparentIdentifier, 'h', "TransparentIdentifier"),
    (.anonymousTypeField, 'i', "AnonymousTypeField"),
    (.autoPropertyBackingField, 'k', "AutoPropertyBackingField"),
    (.iteratorCurrentThreadIdField, 'l', "IteratorCurrentThreadIdField"),
    (.iteratorFinallyMethod, 'm', "IteratorFinallyMethod"),
    (.baseMethodWrapper, 'n', "BaseMethodWrapper"),
    (.dynamicCallSiteContainerType, 'o', "DynamicCallSiteContainerType"),
    (.dynamicCallSiteField, 'p', "DynamicCallSiteField"),
    (.hoistedSynthesizedLocalField, 's', "HoistedSynthesizedLocalField"),
    (.asyncBuilderField, 't', "AsyncBuilderField"),
    (.awaiterField, 'u', "AwaiterField")]

/-- the kind that a character stands for -/
def ofChar? (c : Char) : Option Kind := (table.find? (·.2.1 == c)).map (·.1)

def char (k : Kind) : Char := ((table.find? (·.1 == k)).map (·.2.1)).getD '?'

def name (k : Kind) : String := ((table.find? (·.1 == k)).map (·.2.2)).getD ""

@[simp] theorem ofChar?_char (k : Kind) : ofChar? k.char = some k := by
  cases k <;> rfl

/-- whether helpers of this kind are types, whose names have hyphens for dots -/
def isTypeName : Kind → Bool
  | .lambdaDisplayClass | .stateMachineType | .dynamicCallSiteContainerType => true
  | _ => false

end Kind

/-- what may stand before the opening bracket -/
def marker : List Char := ['C', 'S', '$']

end GeneratedName

/-- a generated name, taken apart -/
structure GeneratedName where
  /-- whether the name starts with the marker -/
  marked : Bool
  /-- what stands between the brackets -/
  source : List Char
  kind : GeneratedName.Kind
  /-- what follows the kind -/
  rest : List Char
  deriving DecidableEq, Repr

namespace GeneratedName

/-- the parts put together -/
def text (g : GeneratedName) : List Char :=
  (if g.marked then marker else []) ++ '<' :: g.source ++ '>' :: g.kind.char :: g.rest

/-- splits a text at the first closing bracket that has no partner, with `depth` brackets open before it -/
def splitAtClose (depth : Nat) : List Char → Option (List Char × List Char)
  | [] => none
  | c :: cs =>
    if c = '<' then (splitAtClose (depth + 1) cs).map fun p => (c :: p.1, p.2)
    else if c = '>' then
      match depth with
      | 0 => some ([], cs)
      | depth + 1 => (splitAtClose depth cs).map fun p => (c :: p.1, p.2)
    else (splitAtClose depth cs).map fun p => (c :: p.1, p.2)

/-- reads what follows the opening bracket -/
def parseBody (marked : Bool) (body : List Char) : Option GeneratedName := do
  let (source, after) ← splitAtClose 0 body
  let c ← after.head?
  let kind ← Kind.ofChar? c
  return ⟨marked, source, kind, after.tail⟩

/-- takes a name apart, if it is a generated one -/
def parse? : List Char → Option GeneratedName
  | 'C' :: 'S' :: '$' :: '<' :: body => parseBody true body
  | '<' :: body => parseBody false body
  | _ => none

/-- the number of octets of a text in UTF-8 -/
def octets : List Char → Nat
  | [] => 0
  | c :: cs => c.utf8Size + octets cs

/-- the octet offset of the opening bracket -/
def opening (g : GeneratedName) : Nat := if g.marked then octets marker else 0

/-- the octet offset of the closing bracket -/
def closing (g : GeneratedName) : Nat := g.opening + 1 + octets g.source

/-- the source name, with dots for the hyphens of a type's name -/
def sourceName (g : GeneratedName) : List Char :=
  if g.kind.isTypeName then g.source.map fun c => if c = '-' then '.' else c else g.source

/-- the source name in a generated name, if its kind is the one required -/
def sourceName? (required : Option Kind) (name : List Char) : Option (List Char) := do
  let g ← parse? name
  if required.all (· == g.kind) then some g.sourceName else none

theorem append_of_splitAtClose {depth : Nat} {cs source after : List Char}
    (h : splitAtClose depth cs = some (source, after)) : cs = source ++ '>' :: after := by
  induction cs generalizing depth source with
  | nil => cases h
  | cons c cs ih =>
    unfold splitAtClose at h
    split at h
    · obtain ⟨p, hp, he⟩ := Option.map_eq_some_iff.1 h
      cases he
      simp [ih hp]
    · split at h
      · next hc =>
        subst hc
        split at h
        · cases h; rfl
        · obtain ⟨p, hp, he⟩ := Option.map_eq_some_iff.1 h
          cases he
          simp [ih hp]
      · obtain ⟨p, hp, he⟩ := Option.map_eq_some_iff.1 h
        cases he
        simp [ih hp]

end GeneratedName

end FrameSymbols
