/-
What was decoded from a module so far.

Symbols are remembered under the words of their tokens, and what is remembered once stays (`type?_keepType`,
`method?_keepMethod`).
-/
import FrameSymbols.Action
import FrameSymbols.Symbol
import Std.Data.TreeMap

namespace FrameSymbols

/-- the symbols decoded so far, by the words of their tokens -/
structure Memory where
  types : Std.TreeMap UInt32 TypeSymbol
  methods : Std.TreeMap UInt32 MethodSymbol

namespace Memory

def empty : Memory := ⟨{}, {}⟩

def type? (memory : Memory) (token : Token) : Option TypeSymbol := memory.types[token.value]?

def method? (memory : Memory) (token : Token) : Option MethodSymbol := memory.methods[token.value]?

/-- remembers a type under a token that is still free -/
def keepType (memory : Memory) (token : Token) (t : TypeSymbol) : Memory :=
  { memory with types := memory.types.insertIfNew token.value t }

/-- remembers a method under a token that is still free -/
def keepMethod (memory : Memory) (token : Token) (m : MethodSymbol) : Memory :=
  { memory with methods := memory.methods.insertIfNew token.value m }

theorem type?_keepType (memory : Memory) (token other : Token) (t : TypeSymbol) :
    (memory.keepType token t).type? other =
      if other = token ∧ memory.type? token = none then some t else memory.type? other := by
  simp only [type?, keepType, Std.TreeMap.getElem?_insertIfNew, Std.compare_eq_iff_eq, Std.TreeMap.mem_iff_isSome_getElem?,
    Bool.not_eq_true, Option.isSome_eq_false_iff, Option.isNone_iff_eq_none]
  cases token; cases other; simp only [Token.mk.injEq]; grind

theorem method?_keepMethod (memory : Memory) (token other : Token) (m : MethodSymbol) :
    (memory.keepMethod token m).method? other =
      if other = token ∧ memory.method? token = none then some m else memory.method? other := by
  simp only [method?, keepMethod, Std.TreeMap.getElem?_insertIfNew, Std.compare_eq_iff_eq,
    Std.TreeMap.mem_iff_isSome_getElem?, Bool.not_eq_true, Option.isSome_eq_false_iff, Option.isNone_iff_eq_none]
  cases token; cases other; simp only [Token.mk.injEq]; grind

@[simp] theorem method?_keepType (memory : Memory) (token other : Token) (t : TypeSymbol) :
    (memory.keepType token t).method? other = memory.method? other := rfl

@[simp] theorem type?_keepMethod (memory : Memory) (token other : Token) (m : MethodSymbol) :
    (memory.keepMethod token m).type? other = memory.type? other := rfl

end Memory

/-- a query of a module: it answers or fails, and leaves behind what is remembered afterwards -/
abbrev Query := Action Memory

end FrameSymbols
