/-
Flags of types and methods, and which of them are imported.

The low three bits of the flags give the access level. What is public or protected is always imported; what is internal
only from the level `withInternal` on; what is private only at the level `all`.
-/
namespace FrameSymbols

/-- which members of loaded modules an evaluation may see -/
inductive ImportLevel where
  /-- public and protected members -/
  | publicOnly
  /-- also internal members -/
  | withInternal
  /-- every member -/
  | all
  deriving DecidableEq, Repr

/-- how far a member can be seen -/
inductive Reach where
  /-- from outside the assembly -/
  | outside
  /-- from within the assembly -/
  | assembly
  /-- from within the declaring type -/
  | declaringType
  deriving DecidableEq, Repr

/-- whether members of this reach are imported -/
def Reach.importedAt : Reach → ImportLevel → Bool
  | .outside, _ => true
  | .assembly, level => level ≠ .publicOnly
  | .declaringType, level => level = .all

def accessMask : UInt32 := 7

namespace MethodFlags

def access (flags : UInt32) : UInt32 := flags &&& accessMask

/-- the modifiers, by bit and name -/
def modifierTable : List (UInt32 × String) :=
  [(0x10, "STATIC"), (0x20, "FINAL"), (0x40, "VIRTUAL"), (0x80, "HIDE_BY_SIG"), (0x100, "NEW_SLOT"),
    (0x400, "ABSTRACT"), (0x800, "SPECIAL_NAME"), (0x1000, "RTSPECIAL_NAME")]

def modifiers (flags : UInt32) : UInt32 := flags &&& 0x1DF0

def modifierNames (flags : UInt32) : List String :=
  (modifierTable.filter fun m => flags &&& m.1 != 0).map (·.2)

/-- whether the method belongs to its type and not to an object -/
def isStatic (flags : UInt32) : Bool := flags &&& 0x10 != 0

/-- how far the method can be seen: family, family or assembly, and public from outside; assembly, and family and
assembly from within the assembly; private and compiler-controlled from within the type -/
def reach (flags : UInt32) : Reach :=
  let a := access flags
  if a = 4 ∨ a = 5 ∨ a = 6 then .outside else if a = 2 ∨ a = 3 then .assembly else .declaringType

def isImported (flags : UInt32) (level : ImportLevel) : Bool := (reach flags).importedAt level

end MethodFlags

namespace TypeFlags

def visibility (flags : UInt32) : UInt32 := flags &&& accessMask

def isNested (flags : UInt32) : Bool := 2 ≤ visibility flags

def isInterface (flags : UInt32) : Bool := flags &&& 0x20 != 0

/-- how far the type can be seen: public, nested public, family, and family or assembly from outside; not public,
assembly, and family and assembly from within the assembly; nested private from within the type -/
def reach (flags : UInt32) : Reach :=
  let v := visibility flags
  if v = 1 ∨ v = 2 ∨ v = 4 ∨ v = 7 then .outside else if v = 0 ∨ v = 5 ∨ v = 6 then .assembly else .declaringType

def isImported (flags : UInt32) (level : ImportLevel) : Bool := (reach flags).importedAt level

end TypeFlags

end FrameSymbols
