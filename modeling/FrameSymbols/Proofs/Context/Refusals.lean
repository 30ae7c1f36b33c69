/-
Why a context refuses a token.

The five ways to resolve a token ask the same things in the same order: whether the module is loaded, whether the token
selects a table that is asked for, and whether the row is there (`Screened`). After that only damage is reported
(`Error.IsDamage`), if that is all that the reader reports. Recovering the method that the user wrote always ends in an
answer (`provenance_by_type`), so a method that resolves is never lost on the way to its source (`refusals_agree`).
-/
import FrameSymbols.Proofs.Context.Assembly
import FrameSymbols.Proofs.Context.Conversation
import FrameSymbols.Proofs.Module.Damage
import FrameSymbols.Proofs.Module.Transparency
import FrameSymbols.Proofs.Provenance.StepSources

namespace FrameSymbols

/-- two outcomes fail with the same errors -/
def FailsAlike {α β : Type} (x : Except Error α) (y : Except Error β) : Prop := ∀ e, x = .error e ↔ y = .error e

theorem FailsAlike.trans {α β γ : Type} {x : Except Error α} {y : Except Error β} {z : Except Error γ}
    (h : FailsAlike x y) (h' : FailsAlike y z) : FailsAlike x z := fun e => (h e).trans (h' e)

theorem failsAlike_map {α β : Type} (x : Except Error α) (f : α → β) : FailsAlike x (x.map f) := by
  intro e
  cases x <;> simp [Except.map]

namespace LoadedModule

variable {m : LoadedModule} {memory : Memory}

/-! ## Only damage behind the check of the token -/

/-- what a token of some tables can be refused for: none of the tables is selected, or the row is not there; what else
goes wrong is damage -/
structure Screens {α : Type} (m : LoadedModule) (token : Token) (tables : List TableId) (kind : SymbolKind)
    (outcome : Except Error α) : Prop where
  otherTable : (∀ table ∈ tables, token.selects table = false) → outcome = .error (.tokenKindMismatch token kind)
  noRow : ∀ table ∈ tables, token.selects table = true → token.row = 0 ∨ m.reader.rowCount table < token.row →
    outcome = .error (.rowOutOfRange token (m.reader.rowCount table))
  damage : ∀ table ∈ tables, token.selects table = true → token.row ≠ 0 → token.row ≤ m.reader.rowCount table →
    ∀ e, outcome = .error e → e.IsDamage

/-- a query that checks its token first -/
theorem screens_of_check {α : Type} {token : Token} {table : TableId} {kind : SymbolKind} {outcome : Except Error α}
    (hfail : ∀ e, m.checkToken token table kind = .error e → outcome = .error e)
    (hok : m.checkToken token table kind = .ok () → ∀ e, outcome = .error e → e.IsDamage) :
    m.Screens token [table] kind outcome := by
  constructor
  · intro hsel
    exact hfail _ (by rw [checkToken, hsel table List.mem_cons_self]; rfl)
  · intro other hother hsel hrow
    rw [List.mem_singleton.1 hother] at hsel hrow ⊢
    refine hfail _ ?_
    unfold checkToken
    rw [hsel]
    exact if_pos hrow
  · intro other hother hsel h0 hle
    rw [List.mem_singleton.1 hother] at hsel hle
    exact hok (checkToken_eq_ok_iff.2 ⟨hsel, h0, hle⟩)

theorem resolveType_screens (hr : m.reader.ReportsDamage) (token : Token) (memory : Memory) :
    m.Screens token [.typeDef] .type ((m.resolveType token).runFrom memory).1 := by
  rw [runFrom_resolveType]
  refine screens_of_check ?_ ?_
  · intro e hc
    rw [hc]
  · intro hc e he
    rw [hc] at he
    exact typeOfRow_damage hr he

theorem resolveMethod_screens (hr : m.reader.ReportsDamage) (h : m.Coherent memory) (token : Token) :
    m.Screens token [.methodDef] .method ((m.resolveMethod token).runFrom memory).1 := by
  rw [resolveMethod_answer h]
  refine screens_of_check ?_ ?_
  · intro e hc
    rw [hc]
  · intro hc e he
    rw [hc] at he
    simp only at he
    split at he
    · next e' ho =>
      cases he
      exact .inl (hr.ownerOf _ _ ho)
    · split at he
      · next e' ht =>
        cases he
        exact typeOfRow_damage hr ht
      · cases hm : m.reader.methodRow token.row with
        | error e' =>
          rw [hm] at he
          cases he
          exact .inl (hr.methodRow _ _ hm)
        | ok row => rw [hm] at he; cases he

theorem Screens.congr {α β : Type} {token : Token} {tables : List TableId} {kind : SymbolKind} {x : Except Error α}
    {y : Except Error β} (h : m.Screens token tables kind x) (hxy : FailsAlike x y) : m.Screens token tables kind y where
  otherTable := fun hsel => (hxy _).1 (h.otherTable hsel)
  noRow := fun table ht hsel hrow => (hxy _).1 (h.noRow table ht hsel hrow)
  damage := fun table ht hsel h0 hle e he => h.damage table ht hsel h0 hle e ((hxy e).2 he)

/-! ## Recovery always answers -/

theorem sourceOf_failsAlike (h : m.Coherent memory) (token : Token) :
    FailsAlike ((m.resolveMethod token).runFrom memory).1 ((m.sourceOf token).runFrom memory).1 := by
  obtain ⟨hk, -, ha⟩ := resolveMethod_sound token h
  unfold sourceOf
  rw [Action.runFrom_bind]
  rcases hrun : (m.resolveMethod token).runFrom memory with ⟨e | x, memory'⟩
  · intro e'
    simp only [Except.error.injEq]
  · rw [hrun] at hk ha
    obtain ⟨p, hp, -⟩ := provenance_by_type hk (ha x rfl)
    intro e
    simp only [hp, reduceCtorEq]

theorem symbolOf_failsAlike (h : m.Coherent memory) {token : Token} (hsel : token.selects .methodDef = true) :
    FailsAlike ((m.resolveMethod token).runFrom memory).1 ((m.symbolOf token).runFrom memory).1 := by
  simp only [m.symbolOf_method (Token.tableId?_eq_some_iff.2 hsel), Action.runFrom_map]
  exact (sourceOf_failsAlike h token).trans ((failsAlike_map _ _).trans (failsAlike_map _ _))

theorem symbolOf_screens (hr : m.reader.ReportsDamage) (h : m.Coherent memory) (token : Token) :
    m.Screens token [.typeDef, .methodDef] .typeOrMethod ((m.symbolOf token).runFrom memory).1 := by
  have htype : token.selects .typeDef = true →
      m.Screens token [.typeDef] .type ((m.symbolOf token).runFrom memory).1 := by
    intro hsel
    simp only [m.symbolOf_type (Token.tableId?_eq_some_iff.2 hsel), Action.runFrom_map]
    exact (resolveType_screens hr token memory).congr (failsAlike_map _ _)
  have hmethod : token.selects .methodDef = true →
      m.Screens token [.methodDef] .method ((m.symbolOf token).runFrom memory).1 :=
    fun hsel => (resolveMethod_screens hr h token).congr (symbolOf_failsAlike h hsel)
  constructor
  · intro hnone
    have hother : ∀ table ∈ [TableId.typeDef, .methodDef], token.tableId? ≠ some table := by
      intro table htable ht
      rw [Token.tableId?_eq_some_iff, hnone table htable] at ht
      cases ht
    rw [m.symbolOf_other (hother _ (by simp)) (hother _ (by simp))]
    rfl
  · intro table htable hsel hrow
    simp only [List.mem_cons, List.not_mem_nil, or_false] at htable
    rcases htable with rfl | rfl
    · exact (htype hsel).noRow _ List.mem_cons_self hsel hrow
    · exact (hmethod hsel).noRow _ List.mem_cons_self hsel hrow
  · intro table htable hsel h0 hle
    simp only [List.mem_cons, List.not_mem_nil, or_false] at htable
    rcases htable with rfl | rfl
    · exact (htype hsel).damage _ List.mem_cons_self hsel h0 hle
    · exact (hmethod hsel).damage _ List.mem_cons_self hsel h0 hle

end LoadedModule

namespace Context

variable {α β : Type} {c : Context} {id : ModuleId} {token : Token} {tables : List TableId} {kind : SymbolKind}

/-- the outcome for a token of a module: it says that the module is missing if and only if it is; otherwise that the
token is none of the tables if and only if it is not; otherwise that the row is not there if and only if it is not -/
structure Screened (c : Context) (id : ModuleId) (token : Token) (tables : List TableId) (kind : SymbolKind)
    (outcome : Except Error α) : Prop where
  missing : ∀ other, outcome = .error (.moduleNotFound other) ↔ other = id ∧ c.findModule id = none
  otherTable : ∀ m, c.findModule id = some m → ∀ other expected,
    outcome = .error (.tokenKindMismatch other expected) ↔
      other = token ∧ expected = kind ∧ ∀ table ∈ tables, token.selects table = false
  noRow : ∀ m, c.findModule id = some m → ∀ table ∈ tables, token.selects table = true → ∀ other rows,
    outcome = .error (.rowOutOfRange other rows) ↔
      other = token ∧ rows = m.reader.rowCount table ∧ (token.row = 0 ∨ rows < token.row)

/-- what a token of a loaded module can be refused for -/
theorem screened_of_view {m : LoadedModule} (hm : c.findModule id = some m) {outcome : Except Error α}
    (h : m.Screens token tables kind outcome) : c.Screened id token tables kind outcome := by
  have hsome : ∀ table ∈ tables, token.selects table = true → ∀ e, outcome = .error e →
      e = .rowOutOfRange token (m.reader.rowCount table) ∧ (token.row = 0 ∨ m.reader.rowCount table < token.row) ∨
        e.IsDamage := by
    intro table ht hsel e he
    by_cases hrow : token.row = 0 ∨ m.reader.rowCount table < token.row
    · rw [h.noRow table ht hsel hrow, Except.error.injEq] at he
      exact .inl ⟨he.symm, hrow⟩
    · obtain ⟨h0, hle⟩ := not_or.1 hrow
      exact .inr (h.damage table ht hsel h0 (UInt32.not_lt.1 hle) e he)
  have hany : ∀ e, outcome = .error e → e = .tokenKindMismatch token kind ∧ (∀ table ∈ tables, token.selects table = false)
      ∨ (∃ rows, e = .rowOutOfRange token rows) ∨ e.IsDamage := by
    intro e he
    by_cases hnone : ∀ table ∈ tables, token.selects table = false
    · rw [h.otherTable hnone, Except.error.injEq] at he
      exact .inl ⟨he.symm, hnone⟩
    · simp only [not_forall, Bool.not_eq_false] at hnone
      obtain ⟨table, ht, hsel⟩ := hnone
      exact .inr ((hsome table ht hsel e he).imp_left fun hrow => ⟨_, hrow.1⟩)
  constructor
  · intro other
    rw [hm]
    refine iff_of_false (fun he => ?_) (fun hn => nomatch hn.2)
    rcases hany _ he with ⟨hk, -⟩ | ⟨rows, hk⟩ | ⟨damage, hk⟩ | ⟨levels, hk⟩ <;> cases hk
  · intro m' _ other expected
    constructor
    · intro he
      rcases hany _ he with ⟨hk, hnone⟩ | ⟨rows, hk⟩ | ⟨damage, hk⟩ | ⟨levels, hk⟩ <;> cases hk
      exact ⟨rfl, rfl, hnone⟩
    · rintro ⟨rfl, rfl, hnone⟩
      exact h.otherTable hnone
  · intro m' hm' table ht hsel other rows
    obtain rfl := Option.some.inj (hm.symm.trans hm')
    constructor
    · intro he
      rcases hsome table ht hsel _ he with ⟨hk, hrow⟩ | ⟨damage, hk⟩ | ⟨levels, hk⟩ <;> cases hk
      exact ⟨rfl, rfl, hrow⟩
    · rintro ⟨rfl, rfl, hrow⟩
      exact h.noRow table ht hsel hrow

/-- a query of a context whose view screens the token -/
theorem Within.screened {q : Query α} {view : LoadedModule → FrameSymbols.Query α} (hw : Within c id q view)
    {memories : Memories}
    (h : ∀ m, c.findModule id = some m → m.Screens token tables kind ((view m).runFrom (memories.of id)).1) :
    c.Screened id token tables kind (q.runFrom memories).1 := by
  cases hm : c.findModule id with
  | some m =>
    rw [hw.answer m hm]
    exact screened_of_view hm (h m hm)
  | none =>
    rw [hw.missing hm]
    refine ⟨fun other => ?_, fun m hm' => ?_, fun m hm' => ?_⟩
    · simp [hm, eq_comm]
    · rw [hm] at hm'; cases hm'
    · rw [hm] at hm'; cases hm'

theorem Within.failsAlike {q : Query α} {r : Query β} {view : LoadedModule → FrameSymbols.Query α}
    {view' : LoadedModule → FrameSymbols.Query β} (hq : Within c id q view) (hr : Within c id r view')
    {memories : Memories}
    (h : ∀ m, c.findModule id = some m →
      FailsAlike ((view m).runFrom (memories.of id)).1 ((view' m).runFrom (memories.of id)).1) :
    FailsAlike (q.runFrom memories).1 (r.runFrom memories).1 := by
  cases hm : c.findModule id with
  | some m =>
    rw [hq.answer m hm, hr.answer m hm]
    exact h m hm
  | none =>
    rw [hq.missing hm, hr.missing hm]
    intro e
    simp

/-- **Tokens are refused alike.** Where readers report damage only, every way to resolve a token of a module, after any
conversation, refuses a module that is not loaded, then a token of another table, then a row that is not there, and
each of these if and only if it is so. The source of a method, with or without how it was found, is refused with the
error of the method itself, and with no other. -/
theorem refusals_agree (c : Context) (hc : ∀ m ∈ c.modules, m.reader.ReportsDamage) (turns : List Turn) (id : ModuleId)
    (token : Token) :
    c.Screened id token [.typeDef] .type (c.answer turns (c.getType id token)) ∧
      c.Screened id token [.methodDef] .method (c.answer turns (c.getMethod id token)) ∧
      c.Screened id token [.methodDef] .method (c.answer turns (c.getSourceMethod id token)) ∧
      c.Screened id token [.methodDef] .method (c.answer turns (c.resolveSourceMethod id token)) ∧
      c.Screened id token [.typeDef, .methodDef] .typeOrMethod (c.answer turns (c.resolve id token)) ∧
      FailsAlike (c.answer turns (c.getMethod id token)) (c.answer turns (c.getSourceMethod id token)) ∧
      FailsAlike (c.answer turns (c.getMethod id token)) (c.answer turns (c.resolveSourceMethod id token)) ∧
      (token.selects .methodDef = true →
        FailsAlike (c.answer turns (c.getMethod id token)) (c.answer turns (c.resolve id token))) := by
  have hreports : ∀ m, c.findModule id = some m → m.reader.ReportsDamage :=
    fun m hm => hc m (mem_of_findModule hm)
  have hcoherent : ∀ m, c.findModule id = some m → m.Coherent ((c.converse turns).1.of id) :=
    fun m hm => converse_coherent hm turns
  have htype : Within c id (c.getType id token) (·.resolveType token) := ask_within c id _
  have hmethod : Within c id (c.getMethod id token) (·.resolveMethod token) := ask_within c id _
  have horigin : Within c id (c.resolveSourceMethod id token) (·.sourceOf token) := ask_within c id _
  have hmethods : ∀ m, c.findModule id = some m →
      m.Screens token [.methodDef] .method ((m.resolveMethod token).runFrom ((c.converse turns).1.of id)).1 :=
    fun m hm => LoadedModule.resolveMethod_screens (hreports m hm) (hcoherent m hm) token
  have horigins : ∀ m, c.findModule id = some m →
      FailsAlike ((m.resolveMethod token).runFrom ((c.converse turns).1.of id)).1
        ((m.sourceOf token).runFrom ((c.converse turns).1.of id)).1 :=
    fun m hm => LoadedModule.sourceOf_failsAlike (hcoherent m hm) token
  have hsources : ∀ m, c.findModule id = some m →
      FailsAlike ((m.resolveMethod token).runFrom ((c.converse turns).1.of id)).1
        ((Provenance.method <$> m.sourceOf token).runFrom ((c.converse turns).1.of id)).1 := by
    intro m hm
    rw [Action.runFrom_map]
    exact (horigins m hm).trans (failsAlike_map _ _)
  refine ⟨htype.screened ?_, hmethod.screened hmethods, (getSourceMethod_within c id token).screened ?_,
    horigin.screened ?_, (resolve_within c id token).screened ?_,
    hmethod.failsAlike (getSourceMethod_within c id token) hsources, hmethod.failsAlike horigin horigins, ?_⟩
  · exact fun m hm => LoadedModule.resolveType_screens (hreports m hm) token _
  · exact fun m hm => (hmethods m hm).congr (hsources m hm)
  · exact fun m hm => (hmethods m hm).congr (horigins m hm)
  · exact fun m hm => LoadedModule.symbolOf_screens (hreports m hm) (hcoherent m hm) token
  · intro hsel
    exact hmethod.failsAlike (resolve_within c id token)
      fun m hm => LoadedModule.symbolOf_failsAlike (hcoherent m hm) hsel

def sample : Context := around [ofImage Image.sample] {}

/-- the sample has two methods: the third is refused with their number, and the second one keeps its source -/
theorem refusals_agree_sample :
    (∀ m ∈ sample.modules, m.reader.ReportsDamage) ∧
      sample.answer [⟨Image.sample.header.id, fun _ => .symbol (.ofParts .methodDef 2)⟩]
          (sample.resolve Image.sample.header.id (.ofParts .methodDef 3)) =
        .error (.rowOutOfRange (.ofParts .methodDef 3) 2) ∧
      ∃ p, sample.answer [] (sample.resolveSourceMethod Image.sample.header.id (.ofParts .methodDef 2)) = .ok p := by
  have hreports : ∀ m ∈ sample.modules, m.reader.ReportsDamage := by
    intro m hm
    obtain ⟨b, hb, m', -, rfl⟩ := mem_modules.1 hm
    rw [List.mem_singleton.1 (mem_of_mem_kept hb)]
    exact Image.sample.reportsDamage
  obtain ⟨m, hm, hrows⟩ : ∃ m, sample.findModule Image.sample.header.id = some m ∧ m.reader.rowCount .methodDef = 2 :=
    ⟨_, rfl, rfl⟩
  refine ⟨hreports, ?_, ?_⟩
  · have hscreened := (refusals_agree sample hreports
      [⟨Image.sample.header.id, fun _ => .symbol (.ofParts .methodDef 2)⟩] Image.sample.header.id
      (.ofParts .methodDef 3)).2.2.2.2.1
    exact (hscreened.noRow m hm .methodDef (by decide) (by decide) _ _).2 ⟨rfl, hrows.symm, by decide⟩
  · have hfails := (refusals_agree sample hreports [] Image.sample.header.id (.ofParts .methodDef 2)).2.2.2.2.2.2.1
    have hok : (sample.answer [] (sample.getMethod Image.sample.header.id (.ofParts .methodDef 2))).isOk = true := by
      decide +kernel
    cases hp : sample.answer [] (sample.resolveSourceMethod Image.sample.header.id (.ofParts .methodDef 2)) with
    | ok p => exact ⟨p, rfl⟩
    | error e =>
      rw [(hfails e).2 hp] at hok
      cases hok

end Context

end FrameSymbols
