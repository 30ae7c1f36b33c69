/-
Reading module ids from their text form.

The length is checked first, then the hyphens from left to right, then the digits octet by octet in heap order; the first
check that fails is reported.
-/
import FrameSymbols.Error

namespace FrameSymbols.ModuleId

/-- the octet written at a position of the text form -/
def octetAt (text : List UInt8) (position : Nat) : Except TextFault UInt8 :=
  match text[position]?, text[position + 1]? with
  | some high, some low => (Hex.pair? high low).elim (.error (.digits position)) .ok
  | _, _ => .error (.digits position)

/-- reads the octets of a text form -/
def ofOctets (text : List UInt8) : Except TextFault ModuleId :=
  if text.length ≠ textLength then .error .length
  else match hyphenPositions.find? (fun i => text[i]? != some 0x2D) with
    | some i => .error (.hyphen i)
    | none => ModuleId.mk <$> textPositions.mapM (octetAt text)

def parse (text : String) : Except Error ModuleId :=
  (ofOctets (Utf8.encode text)).mapError fun fault => .malformed (.moduleId text fault)

end FrameSymbols.ModuleId
