/-
The modules loaded at one stop of the debugger, grouped into assemblies.

Of several blocks with one id the first is kept. A module with a manifest makes an assembly; a netmodule joins the first
assembly that lists its file name, without regard to ASCII case, and is dropped if none does.

A context answers for a module id and a token. What it remembers of each module is kept apart from that of the others.
-/
import FrameSymbols.Options
import FrameSymbols.Provenance
import Std.Data.TreeSet

namespace FrameSymbols

/-- an assembly: the module with the manifest, and the netmodules attached to it -/
structure Assembly where
  manifest : LoadedModule
  netmodules : List LoadedModule

namespace Assembly

def name (a : Assembly) : String := a.manifest.assemblyName

/-- the modules, the one with the manifest first -/
def modules (a : Assembly) : List LoadedModule := a.manifest :: a.netmodules

end Assembly

/-- where the module of each id is found; of two modules with one id the first counts -/
def indexOf (modules : List LoadedModule) : Std.TreeMap ModuleId LoadedModule :=
  modules.foldl (fun index m => index.insertIfNew m.id m) {}

/-- the assemblies that an evaluation refers to, with the index of their modules -/
structure Context where
  options : Options
  assemblies : List Assembly
  index : Std.TreeMap ModuleId LoadedModule
  indexed : index = indexOf (assemblies.flatMap (·.modules))

namespace Context

def ofAssemblies (options : Options) (assemblies : List Assembly) : Context where
  options := options
  assemblies := assemblies
  index := indexOf (assemblies.flatMap (·.modules))
  indexed := rfl

/-- views sorted into those of manifest modules and those of netmodules, and the ids that were seen -/
structure Sorted where
  seen : Std.TreeSet ModuleId := {}
  manifests : List LoadedModule := []
  netmodules : List LoadedModule := []

/-- sorts one more view, unless its id was seen -/
def Sorted.add (sorted : Sorted) (m : LoadedModule) : Sorted :=
  if sorted.seen.contains m.id then sorted
  else if m.isManifest then
    { sorted with seen := sorted.seen.insert m.id, manifests := sorted.manifests ++ [m] }
  else { sorted with seen := sorted.seen.insert m.id, netmodules := sorted.netmodules ++ [m] }

/-- the assemblies made so far and, in step with them, the files that each of them lists -/
structure Assembling where
  claimedFiles : List (List String) := []
  assemblies : List Assembly := []

/-- makes the assembly of a manifest module -/
def Assembling.start (made : Assembling) (manifest : LoadedModule) : Assembling where
  claimedFiles := made.claimedFiles ++ [manifest.reader.files]
  assemblies := made.assemblies ++ [⟨manifest, []⟩]

/-- attaches a netmodule to the first assembly that lists its file, or drops it -/
def Assembling.attach (made : Assembling) (netmodule : LoadedModule) : Assembling :=
  match made.claimedFiles.findIdx? (·.any (Text.sameIgnoringCase · netmodule.name)) with
  | none => made
  | some owner =>
    let assemblies := made.assemblies.modify owner fun a =>
      { a with netmodules := a.netmodules ++ [netmodule.attachTo a.name] }
    { made with assemblies }

def assembliesOf (loaded : List LoadedModule) : List Assembly :=
  let sorted := loaded.foldl Sorted.add {}
  let made := sorted.manifests.foldl Assembling.start {}
  (sorted.netmodules.foldl Assembling.attach made).assemblies

/-- assembles a context from blocks; it fails when the identifying row of a block cannot be decoded -/
def assemble (blocks : List Reader) (options : Options) : Except Error Context := do
  let loaded ← blocks.mapM (LoadedModule.load · options.importLevel)
  return ofAssemblies options (assembliesOf loaded)

def modules (c : Context) : List LoadedModule := c.assemblies.flatMap (·.modules)

/-- the module with an id, if it is loaded -/
def findModule (c : Context) (id : ModuleId) : Option LoadedModule := c.index[id]?

def moduleOf (c : Context) (id : ModuleId) : Except Error LoadedModule :=
  match c.findModule id with
  | some m => .ok m
  | none => .error (.moduleNotFound id)

/-- the name of a context, from the number of the process and that of the context -/
def nameOf (process : UInt32) (serial : UInt64) : String :=
  "<>EvaluationContext_" ++ Hex.text 8 process.toNat ++ "_" ++ Hex.text 16 serial.toNat

structure Memories where
  entries : List (ModuleId × Memory)

namespace Memories

def empty : Memories := ⟨[]⟩

def of (memories : Memories) (id : ModuleId) : Memory := (memories.entries.lookup id).getD .empty

def put (memories : Memories) (id : ModuleId) (memory : Memory) : Memories :=
  ⟨(id, memory) :: memories.entries.filter (·.1 != id)⟩

end Memories

/-- a query of a context: it answers or fails, and leaves behind what is remembered of each module -/
abbrev Query := Action Memories

/-- a query of one module as a query of the context: no other memory is touched -/
def within {α : Type} (id : ModuleId) (q : FrameSymbols.Query α) : Query α :=
  ExceptT.mk fun memories =>
    ((q.runFrom (memories.of id)).1, memories.put id (q.runFrom (memories.of id)).2)

def ask {α : Type} (c : Context) (id : ModuleId) (q : LoadedModule → FrameSymbols.Query α) : Query α := do
  let m ← c.moduleOf id
  within id (q m)

def getType (c : Context) (id : ModuleId) (token : Token) : Query TypeSymbol := c.ask id (·.resolveType token)

/-- the method that a token of a module refers to, as it is in the tables -/
def getMethod (c : Context) (id : ModuleId) (token : Token) : Query MethodSymbol := c.ask id (·.resolveMethod token)

/-- where the method that a token of a module refers to comes from -/
def resolveSourceMethod (c : Context) (id : ModuleId) (token : Token) : Query Provenance :=
  c.ask id fun m => do m.provenance (← m.resolveMethod token)

/-- the method that the user wrote for the one that a token of a module refers to -/
def getSourceMethod (c : Context) (id : ModuleId) (token : Token) : Query MethodSymbol := do
  return (← c.resolveSourceMethod id token).method

/-- the type or the source method that a token of a module refers to; a module that is not loaded is reported before a
token of another table -/
def resolve (c : Context) (id : ModuleId) (token : Token) : Query Symbol := do
  match token.tableId? with
  | some .typeDef => return .type (← c.getType id token)
  | some .methodDef => return .method (← c.getSourceMethod id token)
  | _ =>
    let _ ← c.moduleOf id
    throw (.tokenKindMismatch token .typeOrMethod)

end Context

end FrameSymbols
