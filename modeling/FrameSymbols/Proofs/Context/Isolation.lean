/-
No module shows in what is told of another.

Take two lists of blocks that differ in the tables of one block only. Their contexts have the same modules, but for the
one of that block (`modules_group_twins`), and a conversation keeps them in step: what is remembered of the other
modules is the same, and so is what they told (`others_in_step`). This needs that no question to another module is
made from what that one told.

Handing on what a module told is an error. Whatever is told, projected or constructed comes from a row of that module
(`Decoded.from`), and every question about a symbol of another module is answered with a mismatch.
-/
import FrameSymbols.Proofs.Context.Assembly
import FrameSymbols.Proofs.Context.Origins
import FrameSymbols.Proofs.Image.Rows

namespace FrameSymbols

/-- two readers tell the same about the module itself, its assembly and its files -/
structure Reader.SameHeader (r r' : Reader) : Prop where
  header : r.header = r'.header
  assembly : r.assembly = r'.assembly
  files : r.files = r'.files

/-- two readers of one module, which are the same unless it is the module `k` -/
structure Reader.Twins (k : ModuleId) (r r' : Reader) : Prop extends r.SameHeader r' where
  same : ∀ row, r.header = .ok row → row.id ≠ k → r = r'

theorem Reader.Twins.refl {k : ModuleId} (r : Reader) : r.Twins k r := ⟨⟨rfl, rfl, rfl⟩, fun _ _ _ => rfl⟩

/-- two views of one module, which are the same unless it is the module `k` -/
structure LoadedModule.Twins (k : ModuleId) (m m' : LoadedModule) : Prop where
  id : m.id = m'.id
  name : m.name = m'.name
  assemblyName : m.assemblyName = m'.assemblyName
  isManifest : m.isManifest = m'.isManifest
  files : m.reader.files = m'.reader.files
  same : m.id ≠ k → m = m'

namespace LoadedModule.Twins

variable {k : ModuleId} {m m' n n' : LoadedModule}

theorem attachTo (h : m.Twins k m') (assemblyName : String) :
    (m.attachTo assemblyName).Twins k (m'.attachTo assemblyName) where
  id := h.id
  name := h.name
  assemblyName := rfl
  isManifest := h.isManifest
  files := h.files
  same := fun hne => congrArg (·.attachTo assemblyName) (h.same hne)

theorem lists (hm : m.Twins k m') (hn : n.Twins k n') : Context.lists m n = Context.lists m' n' := by
  rw [Context.lists, Context.lists, hm.files, hn.name]

/-- readers that are twins are loaded as twins -/
theorem load {r r' : Reader} (h : r.Twins k r') {level : ImportLevel} (hload : LoadedModule.load r level = .ok m) :
    ∃ m', LoadedModule.load r' level = .ok m' ∧ m.Twins k m' := by
  unfold LoadedModule.load at hload ⊢
  rw [← h.header]
  cases hrow : r.header with
  | error e => rw [hrow] at hload; cases hload
  | ok row =>
    rw [hrow] at hload
    cases hload
    refine ⟨_, rfl, rfl, rfl, ?_, ?_, h.files, ?_⟩
    · rw [ofHeader, ofHeader, h.assembly]
    · rw [ofHeader, ofHeader, h.assembly]
    · intro hne
      rw [h.same row hrow hne]

end LoadedModule.Twins

namespace Context

variable {k : ModuleId}

/-! ## Assembling twins -/

theorem mapM_load_twins {readers readers' : List Reader} (h : List.Forall₂ (Reader.Twins k) readers readers')
    {level : ImportLevel} {loaded : List LoadedModule}
    (hload : readers.mapM (LoadedModule.load · level) = .ok loaded) :
    ∃ loaded', readers'.mapM (LoadedModule.load · level) = .ok loaded' ∧
      List.Forall₂ (LoadedModule.Twins k) loaded loaded' := by
  induction h generalizing loaded with
  | nil =>
    cases hload
    exact ⟨[], rfl, .nil⟩
  | @cons r r' readers readers' hr _ ih =>
    rw [List.mapM_cons] at hload ⊢
    cases hm : LoadedModule.load r level with
    | error e => rw [hm] at hload; cases hload
    | ok m =>
      cases hms : readers.mapM (LoadedModule.load · level) with
      | error e => rw [hm, hms] at hload; cases hload
      | ok ms =>
        rw [hm, hms] at hload
        cases hload
        obtain ⟨m', hm', htwin⟩ := LoadedModule.Twins.load hr hm
        obtain ⟨ms', hms', htwins⟩ := ih hms
        exact ⟨m' :: ms', by rw [hm', hms']; rfl, .cons htwin htwins⟩

theorem filter_twins {p p' : LoadedModule → Bool} (hp : ∀ m m', m.Twins k m' → p m = p' m')
    {ms ms' : List LoadedModule} (h : List.Forall₂ (LoadedModule.Twins k) ms ms') :
    List.Forall₂ (LoadedModule.Twins k) (ms.filter p) (ms'.filter p') :=
  List.rel_filter (fun m m' hm => by simp only [hp m m' hm]) h

/-- the first twin with a property is found in both lists, or in none -/
theorem find?_twins {p p' : LoadedModule → Bool} (hp : ∀ m m', m.Twins k m' → p m = p' m') {ms ms' : List LoadedModule}
    (h : List.Forall₂ (LoadedModule.Twins k) ms ms') :
    (ms.find? p = none ∧ ms'.find? p' = none) ∨
      ∃ m m', ms.find? p = some m ∧ ms'.find? p' = some m' ∧ m.Twins k m' := by
  induction h with
  | nil => exact .inl ⟨rfl, rfl⟩
  | @cons m m' ms ms' hm _ ih =>
    rw [List.find?_cons, List.find?_cons, ← hp m m' hm]
    cases p m with
    | true => exact .inr ⟨m, m', rfl, rfl, hm⟩
    | false => exact ih

theorem firsts_twins {ms ms' : List LoadedModule} (h : List.Forall₂ (LoadedModule.Twins k) ms ms') :
    List.Forall₂ (LoadedModule.Twins k) (firsts ms) (firsts ms') := by
  induction h with
  | nil => exact .nil
  | cons hm _ ih => exact .cons hm (filter_twins (fun n n' hn => by rw [hn.id, hm.id]) ih)

theorem assemblyOf_twins {manifests manifests' netmodules netmodules' : List LoadedModule} {m m' : LoadedModule}
    (hmanifests : List.Forall₂ (LoadedModule.Twins k) manifests manifests')
    (hnet : List.Forall₂ (LoadedModule.Twins k) netmodules netmodules') (hm : m.Twins k m') :
    List.Forall₂ (LoadedModule.Twins k) (assemblyOf manifests netmodules m).modules
      (assemblyOf manifests' netmodules' m').modules := by
  have hjoins : ∀ n n', n.Twins k n' → (manifests.find? (Context.lists · n)).any (·.id == m.id) =
      (manifests'.find? (Context.lists · n')).any (·.id == m'.id) := by
    intro n n' hn
    rcases find?_twins (fun a a' ha => ha.lists hn) hmanifests with ⟨hnone, hnone'⟩ | ⟨a, a', ha, ha', htwin⟩
    · rw [hnone, hnone']
      rfl
    · rw [ha, ha', Option.any_some, Option.any_some, htwin.id, hm.id]
  refine .cons hm (List.rel_map (fun n n' hn => ?_) (filter_twins hjoins hnet))
  rw [hm.assemblyName]
  exact hn.attachTo _

theorem modules_group_twins {kept kept' : List LoadedModule} (h : List.Forall₂ (LoadedModule.Twins k) kept kept')
    (options : Options) :
    List.Forall₂ (LoadedModule.Twins k) (modules (ofAssemblies options (group kept)))
      (modules (ofAssemblies options (group kept'))) := by
  have hmanifests : List.Forall₂ (LoadedModule.Twins k) (kept.filter (·.isManifest)) (kept'.filter (·.isManifest)) :=
    filter_twins (fun m m' hm => hm.isManifest) h
  have hnet : List.Forall₂ (LoadedModule.Twins k) (kept.filter (!·.isManifest)) (kept'.filter (!·.isManifest)) :=
    filter_twins (fun m m' hm => by rw [hm.isManifest]) h
  simp only [modules, ofAssemblies, group, List.flatMap_map]
  exact List.rel_flatMap hmanifests fun m m' hm => assemblyOf_twins hmanifests hnet hm

theorem findModule_twins {c c' : Context} (h : List.Forall₂ (LoadedModule.Twins k) c.modules c'.modules)
    {id : ModuleId} (hne : id ≠ k) : c.findModule id = c'.findModule id := by
  have hp : ∀ m m' : LoadedModule, m.Twins k m' → (m.id == id) = (m'.id == id) := fun m m' hm => by rw [hm.id]
  rw [findModule_eq_find?, findModule_eq_find?]
  rcases find?_twins hp h with ⟨hnone, hnone'⟩ | ⟨m, m', hm, hm', htwin⟩
  · exact hnone.trans hnone'.symm
  · have hid : m.id = id := by simpa using List.find?_some hm
    exact hm.trans ((congrArg some (htwin.same (hid ▸ hne))).trans hm'.symm)

/-- in contexts of twins, every module but `k` is the same -/
theorem assemble_twins {readers readers' : List Reader} (h : List.Forall₂ (Reader.Twins k) readers readers')
    {options : Options} {c : Context} (hc : assemble readers options = .ok c) :
    ∃ c', assemble readers' options = .ok c' ∧ ∀ id, id ≠ k → c.findModule id = c'.findModule id := by
  rw [assemble_eq] at hc ⊢
  cases hload : readers.mapM (LoadedModule.load · options.importLevel) with
  | error e => rw [hload] at hc; cases hc
  | ok loaded =>
    rw [hload] at hc
    cases hc
    obtain ⟨loaded', hload', htwins⟩ := mapM_load_twins h hload
    refine ⟨ofAssemblies options (group (firsts loaded')), by rw [hload']; rfl, fun id hne => ?_⟩
    exact findModule_twins (modules_group_twins (firsts_twins htwins) options) hne

/-! ## Conversations in step -/

/-- the question of a turn does not depend on what the module `k` told -/
def Turn.Ignores (k : ModuleId) (t : Turn) : Prop :=
  ∀ log log' : Log, log.filter (·.1 != k) = log'.filter (·.1 != k) → t.ask log = t.ask log'

/-- a turn that asks a module with what that module told ignores every other one -/
theorem Turn.ignores_of_own {t : Turn} (h : ∀ log, t.ask log = t.ask (log.filter (·.1 == t.id))) (hne : t.id ≠ k) :
    t.Ignores k := by
  intro log log' hlog
  have hown : ∀ log : Log, log.filter (·.1 == t.id) = (log.filter (·.1 != k)).filter (·.1 == t.id) := by
    intro log
    rw [List.filter_filter]
    refine List.filter_congr fun entry _ => ?_
    by_cases he : entry.1 = t.id
    · simp [he, hne]
    · simp [he]
  rw [h log, h log', hown log, hown log', hlog]

/-- where only the module `k` may differ, the others stay in step -/
theorem others_in_step {c c' : Context} (hc : ∀ id, id ≠ k → c.findModule id = c'.findModule id) {turns : List Turn}
    (ht : ∀ t ∈ turns, t.id ≠ k → t.Ignores k) : InStep (· != k) (c.converse turns) (c'.converse turns) :=
  converse_in_step (fun id hne => hc id (bne_iff_ne.1 hne)) fun t hmem hne => ht t hmem (bne_iff_ne.1 hne)

end Context

/-! ## Symbols of another module -/

namespace LoadedModule

variable {m : LoadedModule} {a : ModuleId}

theorem ownRow_mismatch (hne : a ≠ m.id) {origin : Origin} (ho : origin.module? = some a) (table : TableId) :
    m.ownRow origin table = .error (.moduleMismatch m.id a) := by
  cases origin with
  | metadata id token =>
    cases ho
    exact if_pos hne
  | source => cases ho
  | synthetic => cases ho

/-- a question about a symbol of another module has no answer, and leaves no trace -/
theorem runFrom_reply_mismatch (hne : a ≠ m.id) {ask : Ask} {s : Symbol} (hs : s ∈ ask.symbols)
    (ho : s.origin.module? = some a) (memory : Memory) :
    (m.reply ask).runFrom memory = (.error (.moduleMismatch m.id a), memory) := by
  cases ask with
  | type token => cases hs
  | method token => cases hs
  | typeForName text => cases hs
  | members t name =>
    rw [List.mem_singleton.1 hs] at ho
    have hrow : m.ownRow t.origin .typeDef = .error (.moduleMismatch m.id a) := ownRow_mismatch hne ho .typeDef
    rw [reply, Action.runFrom_map, members, hrow]
    rfl
  | argument x applied =>
    rw [List.mem_singleton.1 hs] at ho
    have hrow : m.ownRow x.origin .methodDef = .error (.moduleMismatch m.id a) := ownRow_mismatch hne ho .methodDef
    rw [reply, Action.runFrom_map, attributeArgument, hrow]
    rfl
  | provenance x =>
    rw [List.mem_singleton.1 hs] at ho
    have hother : x.origin.module?.filter (· != m.id) = some a := by
      rw [show x.origin.module? = some a from ho]
      simp [hne]
    rw [reply, Action.runFrom_map, provenance, hother]
    rfl

end LoadedModule

namespace Context

theorem answer_mismatch {c : Context} {a b : ModuleId} {m : LoadedModule} (hb : c.findModule b = some m) (hne : a ≠ b)
    {s : Symbol} (hs : s.From a) {ask : Ask} (hask : s ∈ ask.symbols) (turns : List Turn) :
    c.answer turns (c.reply b ask) = .error (.moduleMismatch b a) := by
  have hid := id_of_findModule hb
  subst hid
  cases ask with
  | view ask =>
    rw [answer, (reply_within c m.id (.view ask)).answer m hb, Ask.replyOf,
      LoadedModule.runFrom_reply_mismatch hne hask hs.origin]
  | _ => cases hask

/-- **Modules are isolated.** Exchange the tables of one block, but not its module, its assembly and its files: then
every conversation in which the other modules are not asked about what that one told gets the same answers from them.
And a symbol that comes from one module and is handed to another is a mismatch, whatever was done with it before. -/
theorem modules_isolated :
    (∀ (before after : List Reader) (r r' : Reader) (options : Options) (c : Context), r.SameHeader r' →
      assemble (before ++ r :: after) options = .ok c →
        ∃ row c', r.header = .ok row ∧ assemble (before ++ r' :: after) options = .ok c' ∧
          ∀ turns : List Turn, (∀ t ∈ turns, t.id ≠ row.id → t.Ignores row.id) →
            (c.converse turns).2.filter (·.1 != row.id) = (c'.converse turns).2.filter (·.1 != row.id)) ∧
    ∀ (c : Context) (a b : ModuleId) (m : LoadedModule), c.findModule b = some m → a ≠ b →
      ∀ (s : Symbol), c.Decoded a s → ∀ (turns : List Turn) (ask : Ask), s ∈ ask.symbols →
        c.answer turns (c.reply b ask) = .error (.moduleMismatch b a) := by
  constructor
  · intro before after r r' options c hsame hc
    cases hrow : r.header with
    | error e =>
      obtain ⟨e', he⟩ := (assemble_fails_iff (before ++ r :: after) options).2
        ⟨r, List.mem_append_right before List.mem_cons_self, e, hrow⟩
      rw [hc] at he
      cases he
    | ok row =>
      have hr : r.Twins row.id r' := by
        refine ⟨hsame, fun row' hrow' hne => ?_⟩
        rw [hrow] at hrow'
        cases hrow'
        exact absurd rfl hne
      have hrefl : ∀ readers : List Reader, List.Forall₂ (Reader.Twins row.id) readers readers :=
        fun readers => List.forall₂_same.2 fun reader _ => .refl reader
      obtain ⟨c', hc', hfind⟩ := assemble_twins (List.rel_append (hrefl before) (.cons hr (hrefl after))) hc
      exact ⟨row, c', rfl, hc', fun turns ht => (others_in_step hfind ht).log⟩
  · intro c a b m hb hne s hs turns ask hask
    exact answer_mismatch hb hne hs.from hask turns

def library : Image :=
  ((Image.empty "Lib.dll" ⟨.replicate 16 8⟩).addAll [.assembly "Lib", .type "Lib" "Thing" 1]).1

/-- the sample next to a library -/
def besides (image : Image) : List Block := [ofImage Image.sample, ofImage image]

/-- asks where the method that was told first comes from -/
def follow : Log → Ask
  | (_, .ok (.method x)) :: _ => .view (.provenance x)
  | _ => .method (.ofParts .methodDef 1)

/-- asks the library for its type, and the sample for a method and for its source -/
def interleaved : List Turn :=
  [⟨Image.sample.header.id, fun _ => .method (.ofParts .methodDef 2)⟩,
    ⟨library.header.id, fun _ => .type (.ofParts .typeDef 1)⟩,
    ⟨Image.sample.header.id, fun log => follow (log.filter (·.1 == Image.sample.header.id))⟩]

/-- without its type the library answers otherwise, but the sample does not; and the library takes no method of the
sample -/
theorem modules_isolated_sample :
    assemble ((besides library).map (·.reader)) {} = .ok (around (besides library) {}) ∧
      ∃ c', assemble ((besides { library with types := #[] }).map (·.reader)) {} = .ok c' ∧
        ((around (besides library) {}).converse interleaved).2.map (·.2.isOk) = [true, true, true] ∧
        (c'.converse interleaved).2.map (·.2.isOk) = [true, false, true] ∧
        ((around (besides library) {}).converse interleaved).2.filter (·.1 != library.header.id) =
          (c'.converse interleaved).2.filter (·.1 != library.header.id) ∧
        ∃ x, (around (besides library) {}).Decoded Image.sample.header.id (.method x) ∧
          (around (besides library) {}).answer interleaved ((around (besides library) {}).reply library.header.id
            (.view (.argument x .iteratorStateMachine))) =
              .error (.moduleMismatch library.header.id Image.sample.header.id) := by
  have hc := assemble_blocks (besides library) {}
  have hc' := assemble_blocks (besides { library with types := #[] }) {}
  refine ⟨hc, _, hc', by decide +kernel, by decide +kernel, ?_, ?_⟩
  · obtain ⟨row, c', hrow, hassembled, hsame⟩ := modules_isolated.1 [Image.sample.reader] [] library.reader
      ({ library with types := #[] } : Image).reader {} _ ⟨rfl, rfl, rfl⟩ hc
    cases hrow
    have heq : c' = around (besides { library with types := #[] }) {} :=
      Except.ok.inj (hassembled.symm.trans hc')
    subst heq
    refine hsame interleaved fun t ht hne => ?_
    simp only [interleaved, List.mem_cons, List.not_mem_nil, or_false] at ht
    rcases ht with rfl | rfl | rfl
    · exact fun _ _ _ => rfl
    · exact absurd rfl hne
    · refine Turn.ignores_of_own (fun log => ?_) hne
      simp only [List.filter_filter, Bool.and_self]
  · have hok : ((around (besides library) {}).answer []
        ((around (besides library) {}).getMethod Image.sample.header.id (.ofParts .methodDef 2))).isOk = true := by
      decide +kernel
    cases hx : (around (besides library) {}).answer []
        ((around (besides library) {}).getMethod Image.sample.header.id (.ofParts .methodDef 2)) with
    | error e => rw [hx] at hok; cases hok
    | ok x =>
      have hreply : (around (besides library) {}).answer []
          ((around (besides library) {}).reply Image.sample.header.id (.method (.ofParts .methodDef 2))) =
            .ok (.method x) := by
        rw [answer, reply, Action.runFrom_map]
        exact congrArg (Except.map Reply.method) hx
      have hdecoded : (around (besides library) {}).Decoded Image.sample.header.id (.method x) :=
        .told (fun u hu => by cases hu) hreply List.mem_cons_self
      obtain ⟨m, hm⟩ : ∃ m, (around (besides library) {}).findModule library.header.id = some m := ⟨_, rfl⟩
      exact ⟨x, hdecoded, modules_isolated.2 _ _ _ m hm (by decide) _ hdecoded interleaved
        (.view (.argument x .iteratorStateMachine)) List.mem_cons_self⟩

end Context

end FrameSymbols
