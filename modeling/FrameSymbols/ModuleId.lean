/-
Module version ids: the 128-bit identity that the runtime reports for a module, kept as the 16 octets of the GUID heap.

The heap stores the first three groups of the text form in little-endian order and the rest as it is read. Ids are
ordered by the number in their first four octets, and then octet by octet.
-/
import FrameSymbols.Text.Hex

namespace FrameSymbols

/-- the identity of one build of one module -/
structure ModuleId where
  bytes : Vector UInt8 16
  deriving DecidableEq, Repr

namespace ModuleId

/-- where the two digits of each heap octet stand in the text form -/
def textPositions : Vector Nat 16 := #v[6, 4, 2, 0, 11, 9, 16, 14, 19, 21, 24, 26, 28, 30, 32, 34]

/-- where the text form has its hyphens -/
def hyphenPositions : List Nat := [8, 13, 18, 23]

def textLength : Nat := 36

/-- the heap octets of each group of the text form -/
def groups : List (List Nat) := [[3, 2, 1, 0], [5, 4], [7, 6], [8, 9], [10, 11, 12, 13, 14, 15]]

/-- the octets in heap order -/
def octets (id : ModuleId) : List UInt8 := id.bytes.toList

/-- the hyphenated text form, in lower case -/
def text (id : ModuleId) : String :=
  "-".intercalate (groups.map fun g =>
    String.join (g.map fun i => Hex.text 2 ((id.octets[i]?).getD 0).toNat))

instance : ToString ModuleId := ⟨text⟩

/-- the octets in the order in which they are compared -/
def sortKey (id : ModuleId) : List UInt8 := (id.octets.take 4).reverse ++ id.octets.drop 4

instance : Ord ModuleId := ⟨fun a b => compare a.sortKey b.sortKey⟩

/-- why a text is not the text form of an id -/
inductive TextFault where
  /-- the text does not have 36 octets -/
  | length
  /-- the octet at this index is no hyphen -/
  | hyphen (index : Nat)
  /-- the two octets from this index on are no hexadecimal digits -/
  | digits (index : Nat)
  deriving DecidableEq, Repr

def TextFault.message : TextFault → String
  | .length => "GUID string has wrong length (expected 36 bytes)"
  | .hyphen index => s!"GUID string is missing a separator (`-`) at index {index}"
  | .digits index => s!"GUID string contains invalid ASCII hex at index {index}"

instance : ToString TextFault := ⟨TextFault.message⟩

end ModuleId

end FrameSymbols
