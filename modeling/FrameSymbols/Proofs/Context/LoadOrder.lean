/-
The order in which blocks are loaded.

Blocks that are loaded later take nothing away. What is kept of the first ones is kept first of all (`kept_append`), so
the first lister of a netmodule stays the first (`home_append`): a module that was found stays what it is, and an
assembly can only get more netmodules (`context_grows`).

Where ids are distinct and no netmodule is listed by two manifests there is no first to choose: every block is kept, and
the home of a netmodule is the one manifest that lists it (`home_iff`). So any order finds the same modules
(`load_order_irrelevant`).
-/
import FrameSymbols.Proofs.Context.Assembly
import FrameSymbols.Proofs.Context.Conversation
import FrameSymbols.Proofs.Image.Rows

namespace FrameSymbols.Context

variable {bs es : List Block} {options : Options}

/-! ## More blocks -/

/-- what is kept of some blocks is kept first, whatever follows them -/
theorem kept_append (bs es : List Block) : kept bs <+: kept (bs ++ es) := by
  induction bs with
  | nil => exact List.nil_prefix
  | cons b bs ih =>
    rw [List.cons_append, kept_cons, kept_cons]
    exact (List.prefix_cons_inj b).2 (ih.filter _)

theorem home_append {b m : Block} (h : home bs b = some m) : home (bs ++ es) b = some m := by
  unfold home at h ⊢
  split_ifs at h ⊢ with hmanifest
  · exact h
  · exact (kept_append bs es).find?_eq_some h

/-- a module that is found is found as it is, whatever is loaded later -/
theorem findModule_append {id : ModuleId} {x : LoadedModule} (h : (around bs options).findModule id = some x) :
    (around (bs ++ es) options).findModule id = some x := by
  obtain ⟨b, hb, hid, m, hhome, hx⟩ := findModule_around.1 h
  exact findModule_around.2 ⟨b, (kept_append bs es).subset hb, hid, m, home_append hhome, hx⟩

/-- a netmodule that finds its manifest among the later blocks joins none of the earlier ones -/
theorem joins_append {m : Block} (hm : m ∈ kept bs) (b : Block) : joins (bs ++ es) m b = joins bs m b := by
  obtain ⟨later, hlater⟩ := kept_append bs es
  have hnew : ∀ m' ∈ later, m'.row.id ≠ m.row.id := by
    intro m' hm' hid
    have hids := kept_nodup (bs ++ es)
    rw [← hlater, List.map_append] at hids
    exact List.disjoint_of_nodup_append hids (List.mem_map_of_mem hm) (List.mem_map.2 ⟨m', hm', hid⟩)
  unfold joins home
  split_ifs with hmanifest
  · rfl
  · rw [firstLister, firstLister, ← hlater, List.find?_append]
    cases (kept bs).find? (·.lists b) with
    | some m' => rfl
    | none =>
      rw [Option.none_or]
      cases hfind : later.find? (·.lists b) with
      | none => rfl
      | some m' => simp [hnew m' (List.mem_of_find?_eq_some hfind)]

/-- the modules of an assembly come first in the assembly of the same manifest when more is loaded -/
theorem modules_append {m : Block} (hm : m ∈ kept bs) (level : ImportLevel) :
    (assemblyAround bs level m).modules <+: (assemblyAround (bs ++ es) level m).modules := by
  have hjoins : (kept bs).filter (joins bs m) = (kept bs).filter (joins (bs ++ es) m) :=
    List.filter_congr fun b _ => (joins_append hm b).symm
  rw [modules_around, modules_around, members, members, hjoins]
  exact ((List.prefix_cons_inj m).2 ((kept_append bs es).filter _)).map _

/-- the manifest is the same, and the modules come first in the assembly that it makes when more is loaded -/
structure GrowsTo (a a' : Assembly) : Prop where
  manifest : a.manifest = a'.manifest
  modules : a.modules <+: a'.modules

theorem assemblies_append (bs es : List Block) (options : Options) :
    ∃ grown later, (around (bs ++ es) options).assemblies = grown ++ later ∧
      List.Forall₂ GrowsTo (around bs options).assemblies grown := by
  obtain ⟨later, hlater⟩ := kept_append bs es
  refine ⟨((kept bs).filter (·.isManifest)).map (assemblyAround (bs ++ es) options.importLevel),
    (later.filter (·.isManifest)).map (assemblyAround (bs ++ es) options.importLevel), ?_, ?_⟩
  · rw [around, ofAssemblies, ← hlater, List.filter_append, List.map_append]
  · refine List.forall₂_map_left_iff.2 (List.forall₂_map_right_iff.2 (List.forall₂_same.2 fun m hm => ?_))
    exact ⟨rfl, modules_append (List.mem_filter.1 hm).1 options.importLevel⟩

def finds (c : Context) (id : ModuleId) : Bool := (c.findModule id).isSome

/-- **A context is stable under more blocks.** Whatever is loaded later, with repeated ids, new netmodules and manifests
that list the files of others: a module that is found is found as it is, with its name, its assembly, its manifest and
its options; the assemblies come first and in order, and so do the modules in each of them; and every conversation gets
the same answers from the modules that are found without the later blocks. -/
theorem context_grows (bs es : List Block) (options : Options) :
    ∃ c c', assemble (bs.map (·.reader)) options = .ok c ∧ assemble ((bs ++ es).map (·.reader)) options = .ok c' ∧
      (∀ id x, c.findModule id = some x → c'.findModule id = some x) ∧
      (∃ grown later, c'.assemblies = grown ++ later ∧ List.Forall₂ GrowsTo c.assemblies grown) ∧
      ∀ turns : List Turn, (∀ t ∈ turns, c.finds t.id → t.Reads c.finds) →
        (c.converse turns).2.filter (c.finds ·.1) = (c'.converse turns).2.filter (c.finds ·.1) := by
  refine ⟨around bs options, around (bs ++ es) options, assemble_blocks bs options, assemble_blocks (bs ++ es) options,
    fun id x => findModule_append, assemblies_append bs es options, fun turns hturns => ?_⟩
  have hshared : ∀ id, (around bs options).finds id →
      (around bs options).findModule id = (around (bs ++ es) options).findModule id := by
    intro id hid
    obtain ⟨x, hx⟩ := Option.isSome_iff_exists.1 hid
    rw [hx, findModule_append hx]
  exact (converse_in_step hshared hturns).log

/-- a netmodule that a manifest lists, one that none lists, and the sample -/
def early : List Block :=
  [block "Net.netmodule" 3 none [], block "Lib.dll" 1 (some "Lib") ["NET.NetModule"],
    block "Lost.netmodule" 4 none [], ofImage Image.sample]

/-- a second block with the id of the first manifest, and a manifest that lists both netmodules -/
def late : List Block :=
  [block "Copy.dll" 1 (some "Copy") ["Lost.netmodule"],
    block "App.exe" 2 (some "App") ["Net.netmodule", "Lost.netmodule"]]

/-- asks the sample for a method, a netmodule for a type, and the sample for the source of the method -/
def visits : List Turn :=
  [⟨Image.sample.header.id, fun _ => .method (.ofParts .methodDef 2)⟩,
    ⟨⟨.replicate 16 4⟩, fun _ => .type (.ofParts .typeDef 1)⟩,
    ⟨Image.sample.header.id, fun _ => .source (.ofParts .methodDef 2)⟩]

/-- the lost netmodule is found later, and the other one stays where it is -/
theorem context_grows_sample :
    ∃ c c', assemble (early.map (·.reader)) {} = .ok c ∧ assemble ((early ++ late).map (·.reader)) {} = .ok c' ∧
      c.assemblies.map (·.modules.map (·.name)) = [["Lib.dll", "Net.netmodule"], ["Sample.dll"]] ∧
      c'.assemblies.map (·.modules.map (·.name)) =
        [["Lib.dll", "Net.netmodule"], ["Sample.dll"], ["App.exe", "Lost.netmodule"]] ∧
      (∃ x, c.findModule ⟨.replicate 16 3⟩ = some x ∧ x.assemblyName = "Lib" ∧
        c'.findModule ⟨.replicate 16 3⟩ = some x) ∧
      (c.converse visits).2.map (·.2.isOk) = [true, false, true] ∧
      (c.converse visits).2.filter (c.finds ·.1) = (c'.converse visits).2.filter (c.finds ·.1) := by
  obtain ⟨c, c', hc, hc', hfind, -, hconverse⟩ := context_grows early late {}
  have hearly : c = around early {} := Except.ok.inj (hc.symm.trans (assemble_blocks early {}))
  have hall : c' = around (early ++ late) {} := Except.ok.inj (hc'.symm.trans (assemble_blocks (early ++ late) {}))
  refine ⟨c, c', hc, hc', ?_, ?_, ?_, ?_, hconverse visits ?_⟩
  · rw [hearly]
    decide +kernel
  · rw [hall]
    decide +kernel
  · have hlib : (c.findModule ⟨.replicate 16 3⟩).map (·.assemblyName) = some "Lib" := by
      rw [hearly]
      decide +kernel
    obtain ⟨x, hx, hname⟩ := Option.map_eq_some_iff.1 hlib
    exact ⟨x, hx, hname, hfind _ x hx⟩
  · rw [hearly]
    decide +kernel
  · intro t ht _
    simp only [visits, List.mem_cons, List.not_mem_nil, or_false] at ht
    rcases ht with rfl | rfl | rfl <;> exact fun _ _ _ => rfl

/-! ## Any order -/

/-- no netmodule is listed by the manifests of two modules -/
def Unambiguous (blocks : List Block) : Prop :=
  ∀ b ∈ blocks, b.isManifest = false → ∀ m ∈ blocks, ∀ m' ∈ blocks, m.lists b → m'.lists b → m.row.id = m'.row.id

instance (blocks : List Block) : Decidable (Unambiguous blocks) :=
  inferInstanceAs (Decidable (∀ b ∈ blocks, b.isManifest = false → ∀ m ∈ blocks, ∀ m' ∈ blocks,
    m.lists b → m'.lists b → m.row.id = m'.row.id))

/-- where ids are distinct, every block is kept -/
theorem kept_of_nodup (h : (bs.map (·.row.id)).Nodup) : kept bs = bs := by
  induction bs with
  | nil => rfl
  | cons b bs ih =>
    rw [List.map_cons, List.nodup_cons] at h
    rw [kept_cons, ih h.2]
    refine congrArg (b :: ·) (List.filter_eq_self.2 fun b' hb' => ?_)
    exact bne_iff_ne.2 fun hid => h.1 (List.mem_map.2 ⟨b', hb', hid⟩)

/-- the home of a netmodule is any manifest that lists it -/
theorem home_iff (hids : (bs.map (·.row.id)).Nodup) (hone : Unambiguous bs) {b m : Block} (hb : b ∈ bs) :
    home bs b = some m ↔ b.isManifest = true ∧ b = m ∨ b.isManifest = false ∧ m ∈ bs ∧ m.lists b = true := by
  have hkept := kept_of_nodup hids
  unfold home
  split_ifs with hmanifest
  · simp [hmanifest]
  · have hnet : b.isManifest = false := by simpa using hmanifest
    simp only [hnet, Bool.false_eq_true, false_and, true_and, false_or, firstLister, hkept]
    constructor
    · intro hfind
      exact ⟨List.mem_of_find?_eq_some hfind, List.find?_some (p := fun m : Block => m.lists b) hfind⟩
    · rintro ⟨hm, hlists⟩
      obtain ⟨m', hm'⟩ := Option.isSome_iff_exists.1
        (List.find?_isSome (p := fun m : Block => m.lists b).2 ⟨m, hm, hlists⟩)
      have hid : m'.row.id = m.row.id := hone b hb hnet m' (List.mem_of_find?_eq_some hm') m hm
        (List.find?_some (p := fun m : Block => m.lists b) hm') hlists
      rw [hm', List.inj_on_of_nodup_map hids (List.mem_of_find?_eq_some hm') hm hid]

theorem Unambiguous.perm {bs' : List Block} (hperm : bs.Perm bs') (h : Unambiguous bs) : Unambiguous bs' :=
  fun b hb hnet m hm m' hm' =>
    h b (hperm.mem_iff.2 hb) hnet m (hperm.mem_iff.2 hm) m' (hperm.mem_iff.2 hm')

/-- the modules that are found do not depend on the order -/
theorem findModule_perm {bs' : List Block} (hperm : bs.Perm bs') (hids : (bs.map (·.row.id)).Nodup)
    (hone : Unambiguous bs) (options : Options) (id : ModuleId) :
    (around bs options).findModule id = (around bs' options).findModule id := by
  have hids' : (bs'.map (·.row.id)).Nodup := (hperm.map _).nodup_iff.1 hids
  have hhome : ∀ b ∈ bs, ∀ m, home bs b = some m ↔ home bs' b = some m := by
    intro b hb m
    rw [home_iff hids hone hb, home_iff hids' (hone.perm hperm) (hperm.mem_iff.1 hb), hperm.mem_iff]
  refine Option.ext fun x => ?_
  rw [findModule_around, findModule_around, kept_of_nodup hids, kept_of_nodup hids']
  constructor
  · rintro ⟨b, hb, hid, m, hm, hx⟩
    exact ⟨b, hperm.mem_iff.1 hb, hid, m, (hhome b hb m).1 hm, hx⟩
  · rintro ⟨b, hb, hid, m, hm, hx⟩
    have hb := hperm.mem_iff.2 hb
    exact ⟨b, hb, hid, m, (hhome b hb m).2 hm, hx⟩

/-- **Load order does not matter where claims are unambiguous**: with distinct ids, and no netmodule that two manifests
list, any order of the blocks finds the same modules, with the same names, assemblies and manifests, and every
conversation gets the same answers. -/
theorem load_order_irrelevant {bs bs' : List Block} (hperm : bs.Perm bs') (hids : (bs.map (·.row.id)).Nodup)
    (hone : Unambiguous bs) (options : Options) :
    ∃ c c', assemble (bs.map (·.reader)) options = .ok c ∧ assemble (bs'.map (·.reader)) options = .ok c' ∧
      (∀ id, c.findModule id = c'.findModule id) ∧ ∀ turns : List Turn, (c.converse turns).2 = (c'.converse turns).2 := by
  have hsame := findModule_perm hperm hids hone options
  refine ⟨around bs options, around bs' options, assemble_blocks bs options, assemble_blocks bs' options, hsame,
    fun turns => ?_⟩
  have hreads : ∀ t ∈ turns, t.Reads fun _ => true := by
    intro t _ log log' hlog
    rw [List.filter_true, List.filter_true] at hlog
    rw [hlog]
  have hstep := converse_in_step (p := fun _ => true) (fun id _ => hsame id) fun t ht _ => hreads t ht
  simpa using hstep.log

/-- the manifest of the netmodule, the netmodule it lists, and the sample -/
def manifestFirst : List Block :=
  [block "Lib.dll" 1 (some "Lib") ["NET.NetModule"], block "Net.netmodule" 3 none [], ofImage Image.sample]

/-- the netmodule is delivered before its manifest, and it is the assembly of the sample that comes first -/
theorem load_order_irrelevant_sample :
    manifestFirst.Perm manifestFirst.reverse ∧ (manifestFirst.map (·.row.id)).Nodup ∧ Unambiguous manifestFirst ∧
      ∃ c c', assemble (manifestFirst.map (·.reader)) {} = .ok c ∧
        assemble (manifestFirst.reverse.map (·.reader)) {} = .ok c' ∧
        c.assemblies.map (·.modules.map (·.name)) = [["Lib.dll", "Net.netmodule"], ["Sample.dll"]] ∧
        c'.assemblies.map (·.modules.map (·.name)) = [["Sample.dll"], ["Lib.dll", "Net.netmodule"]] ∧
        (∀ id, c.findModule id = c'.findModule id) ∧
        (c.converse visits).2.map (·.2.isOk) = [true, false, true] ∧ (c.converse visits).2 = (c'.converse visits).2 := by
  have hperm : manifestFirst.Perm manifestFirst.reverse := manifestFirst.reverse_perm.symm
  have hids : (manifestFirst.map (·.row.id)).Nodup := by decide +kernel
  have hone : Unambiguous manifestFirst := by decide +kernel
  obtain ⟨c, c', hc, hc', hfind, hconverse⟩ := load_order_irrelevant hperm hids hone {}
  have hfirst : c = around manifestFirst {} := Except.ok.inj (hc.symm.trans (assemble_blocks manifestFirst {}))
  have hlast : c' = around manifestFirst.reverse {} :=
    Except.ok.inj (hc'.symm.trans (assemble_blocks manifestFirst.reverse {}))
  refine ⟨hperm, hids, hone, c, c', hc, hc', ?_, ?_, hfind, ?_, hconverse visits⟩
  · rw [hfirst]
    decide +kernel
  · rw [hlast]
    decide +kernel
  · rw [hfirst]
    decide +kernel

end FrameSymbols.Context
