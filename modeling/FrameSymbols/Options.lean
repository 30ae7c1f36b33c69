/-
Options of the compilation in which an expression is evaluated.

By default it is an optimised library for any processor that may use unsafe code and sees every member of the loaded
modules.
-/
import FrameSymbols.Visibility

namespace FrameSymbols

/-- what the compilation would produce -/
inductive OutputKind where
  | dynamicallyLinkedLibrary | consoleApplication | windowsApplication | netModule
  deriving DecidableEq, Repr

namespace OutputKind

def all : List OutputKind := [.dynamicallyLinkedLibrary, .consoleApplication, .windowsApplication, .netModule]

def name : OutputKind → String
  | .dynamicallyLinkedLibrary => "DynamicallyLinkedLibrary"
  | .consoleApplication => "ConsoleApplication"
  | .windowsApplication => "WindowsApplication"
  | .netModule => "NetModule"

def ofName? (name : String) : Option OutputKind := all.find? (·.name == name)

end OutputKind

/-- the processors the compilation is for -/
inductive Platform where
  | anyCpu | anyCpu32BitPreferred | x86 | x64 | arm64
  deriving DecidableEq, Repr

namespace Platform

def all : List Platform := [.anyCpu, .anyCpu32BitPreferred, .x86, .x64, .arm64]

def name : Platform → String
  | .anyCpu => "AnyCpu"
  | .anyCpu32BitPreferred => "AnyCpu32BitPreferred"
  | .x86 => "X86"
  | .x64 => "X64"
  | .arm64 => "Arm64"

def ofName? (name : String) : Option Platform := all.find? (·.name == name)

end Platform

/-- whether the code is optimised -/
inductive OptimizationLevel where
  | debug | release
  deriving DecidableEq, Repr

namespace OptimizationLevel

def all : List OptimizationLevel := [.debug, .release]

def name : OptimizationLevel → String
  | .debug => "Debug"
  | .release => "Release"

def ofName? (name : String) : Option OptimizationLevel := all.find? (·.name == name)

end OptimizationLevel

namespace ImportLevel

/-- every level, from the narrowest to the widest -/
def levels : List ImportLevel := [.publicOnly, .withInternal, .all]

def name : ImportLevel → String
  | .publicOnly => "Public"
  | .withInternal => "Internal"
  | .all => "All"

def ofName? (name : String) : Option ImportLevel := levels.find? (·.name == name)

end ImportLevel

structure Options where
  outputKind : OutputKind := .dynamicallyLinkedLibrary
  allowUnsafe : Bool := true
  platform : Platform := .anyCpu
  optimizationLevel : OptimizationLevel := .release
  importLevel : ImportLevel := .all
  deriving DecidableEq, Repr

end FrameSymbols
