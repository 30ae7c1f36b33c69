/-
Arity markers: a type that declares generic parameters has a metadata name that ends in a back quote and their number.
-/
namespace FrameSymbols.Arity

/-- the character before the number of parameters -/
def marker : Char := '\x60'

/-- the name without the back quote and the ASCII digits at its end, if both are there -/
def strip (name : List Char) : List Char :=
  let digits := name.reverse.takeWhile Char.isDigit
  match digits, name.reverse.dropWhile Char.isDigit with
  | _ :: _, c :: before => if c = marker then before.reverse else name
  | _, _ => name

end FrameSymbols.Arity
