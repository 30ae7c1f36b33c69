/-
Attribute blobs, read through a cursor.

A cursor is the octets of a blob and a position. Reading past the end fails, and so does a compressed integer with a lead
octet that none has; a read that fails leaves the cursor after whatever it had taken until then. Integers are little-endian,
in two's complement where they have a sign.

Compressed integers take one, two or four octets, told apart by the high bits of the first one, and hold up to 29 bits.
-/
import FrameSymbols.Action

namespace FrameSymbols

/-- a position in the octets of a blob -/
structure Cursor where
  data : List UInt8
  position : Nat
  deriving DecidableEq, Repr

namespace Cursor

def start (data : List UInt8) : Cursor := ⟨data, 0⟩

def length (c : Cursor) : Nat := c.data.length

/-- the octets from the position on -/
def rest (c : Cursor) : List UInt8 := c.data.drop c.position

/-- the number of octets from the position on -/
def remaining (c : Cursor) : Nat := c.data.length - c.position

def hasMore (c : Cursor) : Bool := c.position < c.data.length

/-- the cursor `n` octets further on -/
def advance (c : Cursor) (n : Nat) : Cursor := { c with position := c.position + n }

end Cursor

abbrev Read := Action Cursor

/-- the form of an integer in a blob -/
structure IntegerForm where
  width : Nat
  signed : Bool
  deriving DecidableEq, Repr

namespace IntegerForm

/-- the number that octets stand for, the lowest first -/
def littleEndian : List UInt8 → Nat
  | [] => 0
  | b :: bs => b.toNat + 256 * littleEndian bs

/-- the value of the octets of an integer: with a sign, the upper half of the numbers stands for negative ones -/
def value (form : IntegerForm) (octets : List UInt8) : Int :=
  let n := littleEndian octets
  if form.signed && Nat.pow 256 form.width ≤ 2 * n then (n : Int) - Nat.pow 256 form.width else n

def u8 : IntegerForm := ⟨1, false⟩

def u16 : IntegerForm := ⟨2, false⟩

def u32 : IntegerForm := ⟨4, false⟩

def u64 : IntegerForm := ⟨8, false⟩

def i8 : IntegerForm := ⟨1, true⟩

def i16 : IntegerForm := ⟨2, true⟩

def i32 : IntegerForm := ⟨4, true⟩

def i64 : IntegerForm := ⟨8, true⟩

end IntegerForm

namespace Read

/-- the next octet, without moving -/
def peek : Read UInt8 := do
  match (← get).rest with
  | [] => throw .outOfBounds
  | b :: _ => return b

def octets (n : Nat) : Read (List UInt8) := do
  let c ← get
  if c.remaining < n then throw .outOfBounds
  else
    set (c.advance n)
    return c.rest.take n

def integer (form : IntegerForm) : Read Int := do
  return form.value (← octets form.width)

def octet : Read UInt8 := do
  match ← octets 1 with
  | [] => throw .outOfBounds
  | b :: _ => return b

def compressed : Read Nat := do
  let lead ← octet
  if lead < 0x80 then return lead.toNat
  else if lead < 0xC0 then
    let b ← octet
    return (lead.toNat - 0x80) * 0x100 + b.toNat
  else if lead < 0xE0 then
    let b1 ← octet
    let b2 ← octet
    let b3 ← octet
    return (lead.toNat - 0xC0) * 0x1000000 + b1.toNat * 0x10000 + b2.toNat * 0x100 + b3.toNat
  else throw (.malformed (.compressedLead lead))

/-- the octet that stands for no text -/
def noText : UInt8 := 0xFF

/-- the next text, or none: a compressed number of octets, and the octets in UTF-8 -/
def text? : Read (Option String) := do
  if (← peek) = noText then
    modify (·.advance 1)
    return none
  else
    let length ← compressed
    let start := (← get).position
    let bs ← octets length
    match Utf8.decode bs with
    | .ok s => return some s
    | .error fault => throw (.malformed (.argumentText start length fault))

/-- the number of named arguments, or none if it is left out -/
def namedCount? : Read (Option Int) := do
  if 2 ≤ (← get).remaining then return some (← integer .u16) else return none

end Read

namespace Blob

def compressedMax : Nat := 0x1FFFFFFF

/-- the shortest compressed form of a number -/
def compress (n : Nat) : Except Error (List UInt8) :=
  if n < 0x80 then .ok [UInt8.ofNat n]
  else if n < 0x4000 then .ok [UInt8.ofNat (0x80 + n / 0x100), UInt8.ofNat n]
  else if n ≤ compressedMax then
    .ok [UInt8.ofNat (0xC0 + n / 0x1000000), UInt8.ofNat (n / 0x10000), UInt8.ofNat (n / 0x100), UInt8.ofNat n]
  else .error (.malformed (.uncompressible n))

/-- the word that every attribute blob starts with -/
def prolog : Nat := 1

/-- reads the prolog, one text, and the number of named arguments, which is passed over -/
def readArgument : Read (Option String) := do
  let found ← Read.integer .u16
  if found = prolog then
    let value ← Read.text?
    let _ ← Read.namedCount?
    return value
  else throw (.malformed (.prolog found.toNat.toUInt16))

/-- the text argument of an attribute; what follows it does not matter -/
def argument (blob : List UInt8) : Except Error (Option String) := (readArgument.runFrom (.start blob)).1

/-- the blob of an attribute with one text argument and no named ones; a length of 2³² or more loses its high bits -/
def ofArgument (value : Option String) : Except Error (List UInt8) :=
  match value with
  | none => .ok [1, 0, Read.noText, 0, 0]
  | some s => do
    let octets := Utf8.encode s
    let length ← compress (octets.length % UInt32.size)
    return [1, 0] ++ length ++ octets ++ [0, 0]

end Blob

end FrameSymbols
