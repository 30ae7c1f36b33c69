/-
Fixed-width hexadecimal text: written in lower case with leading zeros, read in either case from ASCII octets.

`fixed_length`: the text of any number has exactly the width asked for.
-/
namespace FrameSymbols.Hex

/-- the low `width` hexadecimal digits of `n`, most significant first -/
def fixed : Nat → Nat → List Char
  | 0, _ => []
  | width + 1, n => fixed width (n / 16) ++ [Nat.digitChar (n % 16)]

theorem fixed_length (width n : Nat) : (fixed width n).length = width := by
  induction width generalizing n with
  | zero => rfl
  | succ width ih => simp [fixed, ih]

/-- the low `width` digits of `n` as text -/
def text (width n : Nat) : String := String.ofList (fixed width n)

/-- the value of one hexadecimal digit given as an ASCII octet, in either case -/
def digit? (octet : UInt8) : Option UInt8 :=
  if 0x30 ≤ octet ∧ octet ≤ 0x39 then some (octet - 0x30)
  else if 0x41 ≤ octet ∧ octet ≤ 0x46 then some (octet - 0x37)
  else if 0x61 ≤ octet ∧ octet ≤ 0x66 then some (octet - 0x57)
  else none

/-- the octet written by two digits, the high one first -/
def pair? (high low : UInt8) : Option UInt8 := do
  let h ← digit? high
  let l ← digit? low
  return h * 16 + l

end FrameSymbols.Hex
