/-
What is loaded, and into which assembly.

Of the blocks whose identifying rows can be decoded, the first with each id is kept (`kept`, by position; `firsts_view`
shows that the views are filtered in the same way). A kept block is found if it has a manifest or a kept manifest lists its
file, and the first one that does gives its assembly (`mem_modules`). Ids tell the modules of all assemblies apart
(`modules_nodup`), so each module is found under its own id. `assemble_exact` puts this together.
-/
import FrameSymbols.Image
import FrameSymbols.Proofs.Context.Grouping
import Mathlib.Data.List.FinRange

namespace FrameSymbols.Context

/-! ## Blocks -/

/-- a block whose identifying row can be decoded -/
structure Block where
  reader : Reader
  row : ModuleRow
  decodes : reader.header = .ok row

namespace Block

def isManifest (b : Block) : Bool := b.reader.assembly.isSome

/-- whether a block has a manifest that lists the file of another one -/
def lists (m b : Block) : Bool :=
  m.isManifest && m.reader.files.any (Text.sameIgnoringCase · b.row.name)

/-- the view of a block before it joins an assembly -/
def view (level : ImportLevel) (b : Block) : LoadedModule := .ofHeader b.reader b.row level

end Block

/-- whether no block before it has the id of a block -/
def isFirst (blocks : List Block) (i : Fin blocks.length) : Bool := ∀ j < i, blocks[j].row.id ≠ blocks[i].row.id

/-- the blocks that are kept: the first ones with their ids -/
def kept (blocks : List Block) : List Block := ((List.finRange blocks.length).filter (isFirst blocks)).map (blocks[·])

/-- the first manifest, of those that are kept, that lists a block -/
def firstLister (blocks : List Block) (b : Block) : Option Block := (kept blocks).find? (·.lists b)

/-- the manifest whose assembly a block belongs to: its own, or the first one that lists it -/
def home (blocks : List Block) (b : Block) : Option Block := if b.isManifest then some b else firstLister blocks b

/-- whether a netmodule joins the assembly of a manifest -/
def joins (blocks : List Block) (m b : Block) : Bool := !b.isManifest && (home blocks b).any (·.row.id == m.row.id)

variable {blocks : List Block} {level : ImportLevel}

theorem isFirst_zero (b : Block) (blocks : List Block) : isFirst (b :: blocks) (0 : Fin (blocks.length + 1)) = true :=
  decide_eq_true fun j hj => absurd hj (Fin.not_lt_zero j)

theorem isFirst_succ (b : Block) (blocks : List Block) (i : Fin blocks.length) :
    isFirst (b :: blocks) i.succ = (blocks[i].row.id != b.row.id && isFirst blocks i) := by
  rw [Bool.eq_iff_iff, Bool.and_eq_true, bne_iff_ne, isFirst, isFirst, decide_eq_true_iff, decide_eq_true_iff]
  refine Fin.forall_fin_succ.trans (and_congr ?_ ?_)
  · exact ⟨fun h he => h i.succ_pos he.symm, fun h _ he => h he.symm⟩
  · simp only [Fin.succ_lt_succ_iff]
    rfl

theorem kept_cons (b : Block) (blocks : List Block) :
    kept (b :: blocks) = b :: (kept blocks).filter (·.row.id != b.row.id) := by
  unfold kept
  simp only [List.length_cons, List.finRange_succ, List.filter_cons, isFirst_zero, if_true, List.map_cons,
    List.filter_map, List.filter_filter, List.map_map]
  exact congrArg (b :: ·) (congrArg (List.map (blocks[·])) (List.filter_congr fun i _ => isFirst_succ b blocks i))

theorem firsts_view (level : ImportLevel) (blocks : List Block) :
    firsts (blocks.map (·.view level)) = (kept blocks).map (·.view level) := by
  induction blocks with
  | nil => rfl
  | cons b blocks ih =>
    rw [List.map_cons, firsts, ih, kept_cons, List.map_cons, List.filter_map]
    rfl

theorem mem_of_mem_kept {b : Block} (h : b ∈ kept blocks) : b ∈ blocks := by
  obtain ⟨i, -, rfl⟩ := List.mem_map.1 h
  exact List.getElem_mem i.isLt

theorem kept_nodup (blocks : List Block) : ((kept blocks).map (·.row.id)).Nodup := by
  induction blocks with
  | nil => exact List.nodup_nil
  | cons b blocks ih =>
    rw [kept_cons, List.map_cons, List.nodup_cons]
    refine ⟨?_, (List.filter_sublist.map _).nodup ih⟩
    intro hin
    obtain ⟨c, hc, hid⟩ := List.mem_map.1 hin
    have hne := (List.mem_filter.1 hc).2
    rw [hid] at hne
    simp at hne

/-! ## Grouping -/

/-- the assembly of a manifest: its view, and those of the netmodules that join it, in the order of the blocks -/
def assemblyAround (blocks : List Block) (level : ImportLevel) (m : Block) : Assembly where
  manifest := m.view level
  netmodules := ((kept blocks).filter (joins blocks m)).map ((·.view level |>.attachTo (m.view level).assemblyName))

theorem find?_manifests (level : ImportLevel) (blocks : List Block) (b : Block) :
    (((kept blocks).map (·.view level)).filter (·.isManifest)).find? (Context.lists · (b.view level)) =
      (firstLister blocks b).map (·.view level) := by
  rw [List.find?_filter, List.find?_map, firstLister]
  refine congrArg (Option.map _) (congrArg (List.find? · (kept blocks)) (funext fun m => ?_))
  show decide (m.isManifest = true ∧ Context.lists (m.view level) (b.view level) = true) = m.lists b
  rw [Bool.decide_and, Bool.decide_eq_true, Bool.decide_eq_true]
  rfl

theorem assemblyOf_kept (level : ImportLevel) (blocks : List Block) (m : Block) :
    assemblyOf (((kept blocks).map (·.view level)).filter (·.isManifest))
      (((kept blocks).map (·.view level)).filter (!·.isManifest)) (m.view level) = assemblyAround blocks level m := by
  have hjoins : ∀ b : Block, (!b.isManifest && ((((kept blocks).map (·.view level)).filter (·.isManifest)).find?
      (Context.lists · (b.view level))).any (·.id == (m.view level).id)) = joins blocks m b := by
    intro b
    rw [find?_manifests, Option.any_map, joins, home]
    cases b.isManifest <;> rfl
  generalize ((kept blocks).map (·.view level)).filter (·.isManifest) = manifests at hjoins ⊢
  unfold assemblyOf assemblyAround
  refine congrArg (Assembly.mk _) ?_
  rw [List.filter_map, List.filter_map, List.map_map, List.filter_filter]
  refine congrArg (List.map _) (List.filter_congr fun b _ => ?_)
  exact (Bool.and_comm _ _).trans (hjoins b)

theorem group_kept (level : ImportLevel) (blocks : List Block) :
    group ((kept blocks).map (·.view level)) =
      ((kept blocks).filter (·.isManifest)).map (assemblyAround blocks level) := by
  have hmanifests : ((kept blocks).map (·.view level)).filter (·.isManifest) =
      ((kept blocks).filter (·.isManifest)).map (·.view level) := List.filter_map
  show List.map _ (((kept blocks).map (·.view level)).filter (·.isManifest)) = _
  rw [hmanifests, List.map_map, ← hmanifests]
  exact List.map_congr_left fun m _ => assemblyOf_kept level blocks m

def around (blocks : List Block) (options : Options) : Context :=
  ofAssemblies options (((kept blocks).filter (·.isManifest)).map (assemblyAround blocks options.importLevel))

/-- blocks that can all be decoded are assembled around their manifests -/
theorem assemble_blocks (blocks : List Block) (options : Options) :
    assemble (blocks.map (·.reader)) options = .ok (around blocks options) := by
  have hload : ∀ b : Block, LoadedModule.load b.reader options.importLevel = .ok (b.view options.importLevel) := by
    intro b
    rw [LoadedModule.load, b.decodes]
    rfl
  have hloaded : (blocks.map (·.reader)).mapM (LoadedModule.load · options.importLevel) =
      .ok (blocks.map (·.view options.importLevel)) := by
    induction blocks with
    | nil => rfl
    | cons b blocks ih =>
      rw [List.map_cons, List.mapM_cons, hload, ih]
      rfl
  rw [assemble_eq, hloaded, around, ← group_kept, ← firsts_view]
  rfl

theorem mapM_load_fails_iff (readers : List Reader) (level : ImportLevel) :
    (∃ e, readers.mapM (LoadedModule.load · level) = .error e) ↔ ∃ r ∈ readers, ∃ e, r.header = .error e := by
  induction readers with
  | nil => simp [pure, Except.pure]
  | cons r readers ih =>
    have hload : LoadedModule.load r level = r.header.map (.ofHeader r · level) := rfl
    rw [List.mapM_cons, List.exists_mem_cons_iff, ← ih, hload]
    cases r.header <;> cases readers.mapM (LoadedModule.load · level) <;>
      simp [bind, Except.bind, pure, Except.pure, Except.map]

/-- assembling fails on a row that cannot be decoded, and only then -/
theorem assemble_fails_iff (readers : List Reader) (options : Options) :
    (∃ e, assemble readers options = .error e) ↔ ∃ r ∈ readers, ∃ e, r.header = .error e := by
  rw [← mapM_load_fails_iff readers options.importLevel]
  unfold assemble
  cases readers.mapM (LoadedModule.load · options.importLevel) <;> simp [bind, Except.bind, pure, Except.pure]

/-! ## Modules -/

theorem eq_of_id {b c : Block} (hb : b ∈ kept blocks) (hc : c ∈ kept blocks) (h : b.row.id = c.row.id) : b = c :=
  List.inj_on_of_nodup_map (kept_nodup blocks) hb hc h

theorem view_assemblyName {m : Block} {name : String} (h : m.reader.assembly = some name) :
    (m.view level).assemblyName = name := by
  simp [Block.view, LoadedModule.ofHeader, h]

/-- a block is at home in a kept block with a manifest -/
theorem home_spec {b m : Block} (hb : b ∈ kept blocks) (h : home blocks b = some m) :
    m ∈ kept blocks ∧ m.isManifest = true := by
  unfold home at h
  split at h
  · next hmanifest =>
    cases h
    exact ⟨hb, hmanifest⟩
  · have hlists : m.lists b = true := List.find?_some (p := fun c : Block => c.lists b) h
    exact ⟨List.mem_of_find?_eq_some h, (Bool.and_eq_true_iff.1 hlists).1⟩

theorem home_isSome_iff {b : Block} :
    (home blocks b).isSome ↔ b.isManifest = true ∨ ∃ m ∈ kept blocks, m.lists b = true := by
  unfold home
  split
  · next hmanifest => simp [hmanifest]
  · next hmanifest => simp [hmanifest, firstLister]

/-- the blocks of an assembly: the manifest, and the netmodules that join it -/
def members (blocks : List Block) (m : Block) : List Block := m :: (kept blocks).filter (joins blocks m)

theorem mem_members {m b : Block} (hm : m ∈ kept blocks) (hmanifest : m.isManifest = true) :
    b ∈ members blocks m ↔ b ∈ kept blocks ∧ home blocks b = some m := by
  have hown : home blocks m = some m := by rw [home, if_pos hmanifest]
  rw [members, List.mem_cons, List.mem_filter, joins, Bool.and_eq_true, Bool.not_eq_true', Option.any_eq_true]
  constructor
  · rintro (rfl | ⟨hb, -, c, hc, hid⟩)
    · exact ⟨hm, hown⟩
    · rw [hc, eq_of_id (home_spec hb hc).1 hm (eq_of_beq hid)]
      exact ⟨hb, rfl⟩
  · rintro ⟨hb, hhome⟩
    by_cases hb' : b.isManifest = true
    · rw [home, if_pos hb'] at hhome
      exact .inl (Option.some.inj hhome)
    · exact .inr ⟨hb, by simpa using hb', m, hhome, beq_self_eq_true _⟩

theorem members_nodup {m : Block} (hm : m ∈ kept blocks) (hmanifest : m.isManifest = true) :
    ((members blocks m).map (·.row.id)).Nodup := by
  rw [members, List.map_cons, List.nodup_cons]
  refine ⟨fun hin => ?_, (List.filter_sublist.map _).nodup (kept_nodup blocks)⟩
  obtain ⟨b, hb, hid⟩ := List.mem_map.1 hin
  obtain ⟨hb, hjoins⟩ := List.mem_filter.1 hb
  rw [eq_of_id hb hm hid, joins, hmanifest] at hjoins
  cases hjoins

def placed (level : ImportLevel) (m b : Block) : LoadedModule := (b.view level).attachTo (m.view level).assemblyName

theorem modules_around (blocks : List Block) (level : ImportLevel) (m : Block) :
    (assemblyAround blocks level m).modules = (members blocks m).map (placed level m) := rfl

theorem ids_around (blocks : List Block) (level : ImportLevel) (m : Block) :
    (assemblyAround blocks level m).modules.map (·.id) = (members blocks m).map (·.row.id) := by
  rw [modules_around, List.map_map]
  rfl

/-- the modules of all assemblies are the kept blocks that have a home -/
theorem mem_modules {options : Options} {x : LoadedModule} :
    x ∈ modules (around blocks options) ↔
      ∃ b ∈ kept blocks, ∃ m, home blocks b = some m ∧ x = placed options.importLevel m b := by
  simp only [modules, around, ofAssemblies, List.flatMap_map, List.mem_flatMap, List.mem_filter, modules_around, List.mem_map]
  constructor
  · rintro ⟨m, ⟨hm, hmanifest⟩, b, hb, rfl⟩
    obtain ⟨hb, hhome⟩ := (mem_members hm hmanifest).1 hb
    exact ⟨b, hb, m, hhome, rfl⟩
  · rintro ⟨b, hb, m, hhome, rfl⟩
    obtain ⟨hm, hmanifest⟩ := home_spec hb hhome
    exact ⟨m, ⟨hm, hmanifest⟩, b, (mem_members hm hmanifest).2 ⟨hb, hhome⟩, rfl⟩

/-- no id occurs twice over all assemblies -/
theorem modules_nodup (blocks : List Block) (options : Options) :
    ((modules (around blocks options)).map (·.id)).Nodup := by
  simp only [modules, around, ofAssemblies, List.flatMap_map, List.map_flatMap, ids_around]
  rw [List.nodup_flatMap]
  constructor
  · intro m hm
    obtain ⟨hm, hmanifest⟩ := List.mem_filter.1 hm
    exact members_nodup hm hmanifest
  · refine ((List.pairwise_map.1 (kept_nodup blocks)).filter _).imp_of_mem fun hm hm' hne => ?_
    rw [List.mem_filter] at hm hm'
    intro id hin hin'
    obtain ⟨b, hb, rfl⟩ := List.mem_map.1 hin
    obtain ⟨b', hb', hid⟩ := List.mem_map.1 hin'
    obtain ⟨hb, hhome⟩ := (mem_members hm.1 hm.2).1 hb
    obtain ⟨hb', hhome'⟩ := (mem_members hm'.1 hm'.2).1 hb'
    rw [eq_of_id hb' hb hid, hhome] at hhome'
    exact hne (congrArg (·.row.id) (Option.some.inj hhome'))

theorem findModule_isSome_iff {c : Context} {id : ModuleId} : (c.findModule id).isSome ↔ ∃ x ∈ c.modules, x.id = id := by
  simp [findModule_eq_find?]

/-- where ids tell the modules apart, each is found under its own -/
theorem findModule_id {c : Context} (h : (c.modules.map (·.id)).Nodup) {x : LoadedModule} (hx : x ∈ c.modules) :
    c.findModule x.id = some x := by
  obtain ⟨y, hy⟩ := Option.isSome_iff_exists.1 (findModule_isSome_iff.2 ⟨x, hx, rfl⟩)
  rw [hy, List.inj_on_of_nodup_map h (mem_of_findModule hy) hx (id_of_findModule hy)]

/-- a module is found under the id of its block, when that is kept and has a home -/
theorem findModule_around {options : Options} {id : ModuleId} {x : LoadedModule} :
    (around blocks options).findModule id = some x ↔
      ∃ b ∈ kept blocks, b.row.id = id ∧ ∃ m, home blocks b = some m ∧ x = placed options.importLevel m b := by
  constructor
  · intro hx
    obtain ⟨b, hb, m, hhome, rfl⟩ := mem_modules.1 (mem_of_findModule hx)
    exact ⟨b, hb, id_of_findModule hx, m, hhome, rfl⟩
  · rintro ⟨b, hb, rfl, m, hhome, rfl⟩
    exact findModule_id (modules_nodup blocks options) (mem_modules.2 ⟨b, hb, m, hhome, rfl⟩)

/-- **Assembling is exact**: it fails on a row that cannot be decoded and only then; a module is found when its block is
kept and has a manifest or is listed by a kept one; it is the view of that block, in the assembly of the first manifest
that lists it; the assemblies are those of the kept manifests in the order of the blocks, with their netmodules in that
order; and every module is found under its own id and occurs once. -/
theorem assemble_exact :
    (∀ (readers : List Reader) (options : Options),
      (∃ e, assemble readers options = .error e) ↔ ∃ r ∈ readers, ∃ e, r.header = .error e) ∧
    ∀ (blocks : List Block) (options : Options), ∃ c, assemble (blocks.map (·.reader)) options = .ok c ∧
      (∀ id, (c.findModule id).isSome ↔
        ∃ b ∈ kept blocks, b.row.id = id ∧ (b.isManifest = true ∨ ∃ m ∈ kept blocks, m.lists b = true)) ∧
      (∀ id x, c.findModule id = some x → ∃ b ∈ kept blocks, b.row.id = id ∧ x.reader = b.reader ∧ x.id = b.row.id ∧
        x.name = b.row.name ∧ x.isManifest = b.isManifest ∧
          ∃ m, home blocks b = some m ∧ m.reader.assembly = some x.assemblyName) ∧
      c.assemblies.map (·.modules.map (·.id)) =
        ((kept blocks).filter (·.isManifest)).map (fun m => (members blocks m).map (·.row.id)) ∧
      (c.modules.map (·.id)).Nodup ∧ ∀ x ∈ c.modules, c.findModule x.id = some x := by
  refine ⟨assemble_fails_iff, fun blocks options => ⟨around blocks options, assemble_blocks blocks options, ?_, ?_, ?_,
    modules_nodup blocks options, fun x => findModule_id (modules_nodup blocks options)⟩⟩
  · intro id
    rw [findModule_isSome_iff]
    constructor
    · rintro ⟨x, hx, rfl⟩
      obtain ⟨b, hb, m, hhome, rfl⟩ := mem_modules.1 hx
      exact ⟨b, hb, rfl, home_isSome_iff.1 (by rw [hhome]; rfl)⟩
    · rintro ⟨b, hb, rfl, hfound⟩
      obtain ⟨m, hhome⟩ := Option.isSome_iff_exists.1 (home_isSome_iff.2 hfound)
      exact ⟨placed options.importLevel m b, mem_modules.2 ⟨b, hb, m, hhome, rfl⟩, rfl⟩
  · intro id x hx
    obtain ⟨b, hb, m, hhome, rfl⟩ := mem_modules.1 (mem_of_findModule hx)
    have hid : (placed options.importLevel m b).id = id := id_of_findModule hx
    obtain ⟨name, hname⟩ := Option.isSome_iff_exists.1 (home_spec hb hhome).2
    exact ⟨b, hb, hid, rfl, rfl, rfl, rfl, m, hhome, by rw [placed, hname, view_assemblyName hname]; rfl⟩
  · rw [around, ofAssemblies, List.map_map]
    exact List.map_congr_left fun m _ => ids_around blocks options.importLevel m

def block (name : String) (id : UInt8) (assembly : Option String) (files : List String) : Block where
  reader := Image.reader { Image.empty name ⟨.replicate 16 id⟩ with assembly, files := files.toArray }
  row := ⟨name, ⟨.replicate 16 id⟩⟩
  decodes := rfl

def ofImage (image : Image) : Block := ⟨image.reader, image.header, rfl⟩

/-- two manifests that list a netmodule, a second block with the id of the first manifest, and a netmodule that none lists
-/
def sampleBlocks : List Block :=
  [block "Net.netmodule" 3 none [], block "Lib.dll" 1 (some "Lib") ["NET.NetModule"],
    block "App.exe" 2 (some "App") ["Net.netmodule"], block "Copy.dll" 1 (some "Copy") [],
    block "Lost.netmodule" 4 none []]

theorem assemble_exact_sample :
    ∃ c, assemble (sampleBlocks.map (·.reader)) {} = .ok c ∧
      c.assemblies.map (·.modules.map (·.id.octets.head?)) = [[some 1, some 3], [some 2]] ∧
      (c.findModule ⟨.replicate 16 4⟩).isSome = false ∧
      ∃ x, c.findModule ⟨.replicate 16 3⟩ = some x ∧ x.assemblyName = "Lib" := by
  obtain ⟨c, hc, hfound, hview, hassemblies, -, -⟩ := assemble_exact.2 sampleBlocks {}
  have hname : ∀ b ∈ kept sampleBlocks, b.row.id = ⟨.replicate 16 3⟩ →
      (home sampleBlocks b).bind (·.reader.assembly) = some "Lib" := by decide +kernel
  refine ⟨c, hc, ?_, ?_, ?_⟩
  · have hids := congrArg (List.map (List.map (·.octets.head?))) hassemblies
    simp only [List.map_map, Function.comp_def] at hids
    exact hids.trans (by decide +kernel)
  · exact Bool.eq_false_iff.2 (mt (hfound _).1 (by decide +kernel))
  · obtain ⟨x, hx⟩ := Option.isSome_iff_exists.1 ((hfound ⟨.replicate 16 3⟩).2 (by decide +kernel))
    obtain ⟨b, hb, hid, -, -, -, -, m, hhome, hassembly⟩ := hview _ x hx
    have hlib := hname b hb hid
    rw [hhome, Option.bind_some, hassembly] at hlib
    exact ⟨x, hx, Option.some.inj hlib⟩

end FrameSymbols.Context
