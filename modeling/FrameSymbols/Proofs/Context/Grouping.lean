/-
What the loops that assemble a context leave behind.

Views are sorted by what was seen before, which keeps the first of each id (`foldl_add`). The files that the assemblies list
are kept in step with the assemblies, so the first list with the file of a netmodule stands where the assembly of the first
manifest that lists it does (`attach_group`). The loops together give the groups (`assembliesOf_eq_group`), and the index
finds the first module with an id (`findModule_eq_find?`).
-/
import FrameSymbols.Context
import Mathlib.Data.List.Induction
import Mathlib.Data.List.Nodup

namespace FrameSymbols

namespace ModuleId

theorem sortKey_injective {a b : ModuleId} (h : a.sortKey = b.sortKey) : a = b := by
  have hlength : ∀ id : ModuleId, (id.octets.take 4).reverse.length = 4 := fun id => by simp [octets]
  obtain ⟨hfirst, hrest⟩ := List.append_inj h ((hlength a).trans (hlength b).symm)
  have hoctets : a.octets = b.octets := by
    rw [← List.take_append_drop 4 a.octets, ← List.take_append_drop 4 b.octets, List.reverse_inj.1 hfirst, hrest]
  cases a
  cases b
  exact congrArg ModuleId.mk (Vector.toList_inj.1 hoctets)

/-- ids are ordered by their keys -/
theorem compare_eq (a b : ModuleId) : compare a b = compare a.sortKey b.sortKey := rfl

instance : Std.TransOrd ModuleId where
  eq_swap {a b} := by rw [compare_eq, compare_eq]; exact Std.OrientedCmp.eq_swap
  isLE_trans {a b c} hab hbc := by
    rw [compare_eq] at hab hbc ⊢
    exact Std.TransCmp.isLE_trans hab hbc

instance : Std.LawfulEqOrd ModuleId where
  compare_self {a} := by rw [compare_eq]; exact Std.ReflCmp.compare_self
  eq_of_compare {a b} h := sortKey_injective (Std.LawfulEqCmp.eq_of_compare (compare_eq a b ▸ h))

end ModuleId

namespace Context

variable {m : LoadedModule} {ms manifests netmodules : List LoadedModule}

/-! ## Sorting -/

/-- keeps the first view of each id -/
def firsts : List LoadedModule → List LoadedModule
  | [] => []
  | m :: ms => m :: (firsts ms).filter (·.id != m.id)

theorem firsts_nodup (ms : List LoadedModule) : ((firsts ms).map (·.id)).Nodup := by
  induction ms with
  | nil => exact List.nodup_nil
  | cons m ms ih =>
    rw [firsts, List.map_cons, List.nodup_cons]
    refine ⟨fun hin => ?_, (List.filter_sublist.map _).nodup ih⟩
    obtain ⟨n, hn, hid⟩ := List.mem_map.1 hin
    exact bne_iff_ne.1 (List.mem_filter.1 hn).2 hid

/-- the first views of ids that were not seen -/
def fresh (seen : Std.TreeSet ModuleId) (ms : List LoadedModule) : List LoadedModule :=
  (firsts ms).filter (!seen.contains ·.id)

theorem fresh_cons_seen {seen : Std.TreeSet ModuleId} (h : seen.contains m.id = true) :
    fresh seen (m :: ms) = fresh seen ms := by
  rw [fresh, firsts, List.filter_cons_of_neg (by simp [h]), List.filter_filter]
  refine List.filter_congr fun n _ => ?_
  -- what was seen is left out by the set already
  by_cases hid : n.id = m.id <;> simp [hid, h]

theorem fresh_cons_new {seen : Std.TreeSet ModuleId} (h : seen.contains m.id = false) :
    fresh seen (m :: ms) = m :: fresh (seen.insert m.id) ms := by
  rw [fresh, firsts, List.filter_cons_of_pos (by simp [h]), List.filter_filter]
  refine congrArg (m :: ·) (List.filter_congr fun n _ => ?_)
  have hid : (compare m.id n.id == .eq) = (n.id == m.id) := by
    rw [Bool.eq_iff_iff, beq_iff_eq, beq_iff_eq, Std.LawfulEqCmp.compare_eq_iff_eq, eq_comm]
  rw [Std.TreeSet.contains_insert, hid, Bool.not_or, Bool.and_comm]
  rfl

/-- sorting keeps the first view of each id that was not seen before -/
theorem foldl_add (ms : List LoadedModule) (sorted : Sorted) :
    (ms.foldl Sorted.add sorted).manifests = sorted.manifests ++ (fresh sorted.seen ms).filter (·.isManifest) ∧
      (ms.foldl Sorted.add sorted).netmodules =
        sorted.netmodules ++ (fresh sorted.seen ms).filter (!·.isManifest) := by
  induction ms generalizing sorted with
  | nil => simp [fresh, firsts]
  | cons m ms ih =>
    rw [List.foldl_cons, Sorted.add]
    by_cases hseen : sorted.seen.contains m.id = true
    · rw [if_pos hseen, fresh_cons_seen hseen]
      exact ih sorted
    · rw [if_neg hseen, fresh_cons_new (Bool.eq_false_iff.2 hseen)]
      by_cases hmanifest : m.isManifest = true
      · rw [if_pos hmanifest]
        simp [ih, hmanifest]
      · rw [if_neg hmanifest]
        simp [ih, hmanifest]

/-! ## Grouping -/

/-- whether the files of a manifest module list a netmodule -/
def lists (manifest netmodule : LoadedModule) : Bool :=
  manifest.reader.files.any (Text.sameIgnoringCase · netmodule.name)

/-- the assembly of a manifest module: the netmodules for which it is the first to list them -/
def assemblyOf (manifests netmodules : List LoadedModule) (manifest : LoadedModule) : Assembly where
  manifest := manifest
  netmodules := (netmodules.filter fun n => (manifests.find? (lists · n)).any (·.id == manifest.id)).map
    (·.attachTo manifest.assemblyName)

def group (kept : List LoadedModule) : List Assembly :=
  let manifests := kept.filter (·.isManifest)
  manifests.map (assemblyOf manifests (kept.filter (!·.isManifest)))

theorem foldl_start (manifests : List LoadedModule) (made : Assembling) :
    manifests.foldl Assembling.start made =
      ⟨made.claimedFiles ++ manifests.map (·.reader.files), made.assemblies ++ manifests.map (⟨·, []⟩)⟩ := by
  induction manifests generalizing made with
  | nil => simp
  | cons m manifests ih => simp [ih, Assembling.start]

/-- what is made of some manifests and netmodules, with the files in step -/
def madeOf (manifests netmodules : List LoadedModule) : Assembling where
  claimedFiles := manifests.map (·.reader.files)
  assemblies := manifests.map (assemblyOf manifests netmodules)

/-- a netmodule that is listed nowhere joins no assembly -/
theorem assemblyOf_unlisted {n : LoadedModule} (h : manifests.find? (lists · n) = none) (manifest : LoadedModule) :
    assemblyOf manifests (netmodules ++ [n]) manifest = assemblyOf manifests netmodules manifest := by
  simp [assemblyOf, List.filter_append, h]

/-- a netmodule joins the assembly of the first manifest that lists it, and no other -/
theorem assemblyOf_listed {n owner : LoadedModule} (h : manifests.find? (lists · n) = some owner)
    (manifest : LoadedModule) : assemblyOf manifests (netmodules ++ [n]) manifest =
      if owner.id = manifest.id then
        { assemblyOf manifests netmodules manifest with
          netmodules := (assemblyOf manifests netmodules manifest).netmodules ++ [n.attachTo manifest.assemblyName] }
      else assemblyOf manifests netmodules manifest := by
  by_cases hid : owner.id = manifest.id <;> simp [assemblyOf, List.filter_append, h, hid]

/-- attaching by position gives a netmodule to the first manifest that lists it -/
theorem attach_group (hids : (manifests.map (·.id)).Nodup) (n : LoadedModule) :
    (madeOf manifests netmodules).attach n = madeOf manifests (netmodules ++ [n]) := by
  have hclaimed : (madeOf manifests netmodules).claimedFiles.findIdx?
      (·.any (Text.sameIgnoringCase · n.name)) = manifests.findIdx? (lists · n) := List.findIdx?_map
  unfold Assembling.attach
  rw [hclaimed]
  cases howner : manifests.findIdx? (lists · n) with
  | none =>
    have hnone : manifests.find? (lists · n) = none :=
      List.find?_eq_none.2 fun m hm => Bool.eq_false_iff.1 (List.findIdx?_eq_none_iff.1 howner m hm)
    exact congrArg (Assembling.mk _) (List.map_congr_left fun m _ => (assemblyOf_unlisted hnone m).symm)
  | some i =>
    obtain ⟨hi, hlists, hbefore⟩ := List.findIdx?_eq_some_iff_getElem.1 howner
    have hsome : manifests.find? (lists · n) = some manifests[i] :=
      List.find?_eq_some_iff_getElem.2 ⟨hlists, i, hi, rfl, fun j hj => by simpa using hbefore j hj⟩
    refine congrArg (Assembling.mk _) (List.ext_getElem? fun j => ?_)
    rw [List.getElem?_modify, madeOf, List.getElem?_map, List.getElem?_map]
    cases hj : manifests[j]? with
    | none => rfl
    | some m =>
      obtain ⟨hlt, rfl⟩ := List.getElem?_eq_some_iff.1 hj
      -- ids tell the manifests apart, so the owner is the one at that position
      have hid : manifests[i].id = manifests[j].id ↔ i = j := by
        have hlength : (manifests.map (·.id)).length = manifests.length := List.length_map _
        rw [← @List.Nodup.getElem_inj_iff _ _ hids i (hlength ▸ hi) j (hlength ▸ hlt), List.getElem_map, List.getElem_map]
      refine congrArg some ?_
      rw [assemblyOf_listed hsome]
      simp only [hid]
      rfl

/-- the netmodules are attached one after the other -/
theorem foldl_attach (hids : (manifests.map (·.id)).Nodup) (netmodules : List LoadedModule) :
    netmodules.foldl Assembling.attach (madeOf manifests []) = madeOf manifests netmodules := by
  induction netmodules using List.reverseRecOn with
  | nil => rfl
  | append_singleton netmodules n ih => rw [List.foldl_append, ih, List.foldl_cons, List.foldl_nil, attach_group hids]

/-- **The loops give the groups** of the first views of each id -/
theorem assembliesOf_eq_group (loaded : List LoadedModule) : assembliesOf loaded = group (firsts loaded) := by
  obtain ⟨hmanifests, hnetmodules⟩ := foldl_add loaded {}
  have hfresh : fresh {} loaded = firsts loaded := List.filter_eq_self.2 fun m _ => by simp
  rw [hfresh, List.nil_append] at hmanifests hnetmodules
  have hids : (((firsts loaded).filter (·.isManifest)).map (·.id)).Nodup :=
    (List.filter_sublist.map _).nodup (firsts_nodup loaded)
  have hstart : ((firsts loaded).filter (·.isManifest)).foldl Assembling.start {} =
      madeOf ((firsts loaded).filter (·.isManifest)) [] := foldl_start _ _
  rw [assembliesOf, hmanifests, hnetmodules, hstart, foldl_attach hids]
  rfl

theorem assemble_eq (blocks : List Reader) (options : Options) :
    assemble blocks options = (blocks.mapM (LoadedModule.load · options.importLevel)).map fun loaded =>
      ofAssemblies options (group (firsts loaded)) := by
  unfold assemble
  simp only [assembliesOf_eq_group]
  cases blocks.mapM (LoadedModule.load · options.importLevel) <;> rfl

/-! ## The index -/

theorem getElem?_foldl_insertIfNew (ms : List LoadedModule) (index : Std.TreeMap ModuleId LoadedModule) (id : ModuleId) :
    (ms.foldl (fun index m => index.insertIfNew m.id m) index)[id]? = index[id]?.or (ms.find? (·.id == id)) := by
  induction ms generalizing index with
  | nil => simp
  | cons m ms ih =>
    rw [List.foldl_cons, ih, Std.TreeMap.getElem?_insertIfNew, List.find?_cons]
    simp only [Std.TreeMap.mem_iff_isSome_getElem?, Std.LawfulEqCmp.compare_eq_iff_eq]
    by_cases hid : m.id = id
    · subst hid
      cases index[m.id]? <;> simp
    · have hne : (m.id == id) = false := beq_eq_false_iff_ne.2 hid
      simp [hid, hne]

/-- the index finds the first module with an id -/
theorem findModule_eq_find? (c : Context) (id : ModuleId) : c.findModule id = c.modules.find? (·.id == id) := by
  rw [findModule, c.indexed, indexOf, getElem?_foldl_insertIfNew, Std.TreeMap.getElem?_emptyc, Option.none_or]
  rfl

variable {c : Context} {id : ModuleId}

/-- a module is found under its own id -/
theorem id_of_findModule (h : c.findModule id = some m) : m.id = id := by
  rw [findModule_eq_find?] at h
  simpa using List.find?_some h

theorem mem_of_findModule (h : c.findModule id = some m) : m ∈ c.modules := by
  rw [findModule_eq_find?] at h
  exact List.mem_of_find?_eq_some h

end Context

end FrameSymbols
