/-
What is remembered for a row, in full.

`remembered_matches_tables`: in a bounded reader that finds owners by its rows, after any history, every remembered
type has the fields of its own row and its chain of enclosing types is remembered row by row along the path that the
tables give; every remembered method has the fields of its own row and is a member of the type remembered for its
owner. What `resolveType` and `resolveMethod` answer is remembered from then on, and a `resolveType` that fails leaves
no trace.
-/
import FrameSymbols.Proofs.Image.Rows
import FrameSymbols.Proofs.Tables.Owners

namespace FrameSymbols.LoadedModule

/-- `t` is the definition that a row describes, inside the types remembered for the rows that enclose it -/
structure DescribesType (m : LoadedModule) (memory : Memory) (row : UInt32) (t : TypeSymbol) : Prop where
  fields : ∃ typeRow, m.reader.typeRow row = .ok typeRow ∧ t.metadataName = typeRow.name ∧
    t.name = String.ofList (Arity.strip typeRow.name.toList) ∧ t.space = typeRow.space ∧ t.flags = typeRow.flags ∧
    t.genericParams = typeRow.genericParams
  origin : t.origin = .metadata m.id (.ofParts .typeDef row)
  definition : t.isInstance = false ∧ t.args = []
  enclosing : ∃ path, IsPath m.reader row path ∧
    List.Forall₂ (fun row u => memory.type? (.ofParts .typeDef row) = some u) path t.enclosing

/-- `x` is the definition that a row describes, as a member of the type remembered for its owner -/
structure DescribesMethod (m : LoadedModule) (memory : Memory) (row : UInt32) (x : MethodSymbol) : Prop where
  fields : ∃ methodRow, m.reader.methodRow row = .ok methodRow ∧ x.name = methodRow.name ∧ x.flags = methodRow.flags ∧
    x.genericParams = methodRow.genericParams
  origin : x.origin = .metadata m.id (.ofParts .methodDef row)
  definition : x.definition = x
  owner : ∃ owner, m.reader.ownerOf row = .ok owner ∧ memory.type? (.ofParts .typeDef owner) = some x.containing ∧
    m.DescribesType memory owner x.containing

variable {m : LoadedModule} {memory : Memory}

theorem TypeAt.describes {row : UInt32} {t : TypeSymbol} (hat : m.TypeAt memory row t) (h : m.Coherent memory)
    (hb : m.reader.Bounded) : m.DescribesType memory row t := by
  obtain ⟨typeRow, hr, ht⟩ := hat.fields
  obtain ⟨hlink, hargs⟩ := hat.plain
  refine ⟨⟨typeRow, hr, ?_⟩, hat.origin, ⟨TypeSymbol.isInstance_eq_false_iff.2 hlink, hargs⟩,
    hat.path h hb.boundedTypes⟩
  rw [ht]
  exact ⟨rfl, rfl, rfl, rfl, rfl⟩

theorem MethodAt.describes {token : Token} {x : MethodSymbol} (hat : m.MethodAt memory token x) (h : m.Coherent memory)
    (hb : m.reader.Bounded) (ho : m.reader.ownerOf = m.reader.owner) (ht : token = .ofParts .methodDef token.row) :
    m.DescribesMethod memory token.row x := by
  obtain ⟨methodRow, owner, hr, hown, hk, hx⟩ := hat.fields
  have hle : owner ≤ m.reader.rowCount .typeDef := (Tables.owner_range (ho ▸ hown)).2
  refine ⟨⟨methodRow, hr, ?_⟩, ?_, ?_, owner, hown, hk, (h.typeAt hb.boundedTypes hle hk).describes h hb⟩
  · rw [hx]; exact ⟨rfl, rfl, rfl⟩
  · rw [← ht, hx]; rfl
  · rw [hx]; rfl

theorem resolveType_fail {token : Token} {e : Error} (h : ((m.resolveType token).runFrom memory).1 = .error e) :
    ((m.resolveType token).runFrom memory).2 = memory := by
  unfold resolveType at h ⊢
  rw [Action.runFrom_bind, Action.runFrom_lift] at h ⊢
  cases hc : m.checkToken token .typeDef .type with
  | error e' => rfl
  | ok _ =>
    rw [hc] at h
    by_cases ha : (walk m.reader (maxNesting + 1) token.row).2 = none ∨ m.Meets memory (maxNesting + 1) token.row
    · obtain ⟨t, ht⟩ := typeSymbol_answers ha
      rw [typeOfRow, ht] at h
      cases h
    · rw [not_or] at ha
      obtain ⟨e', he⟩ := Option.ne_none_iff_exists'.1 ha.1
      simp only [typeOfRow]
      rw [runFrom_typeSymbol_fail he ha.2]

/-- **What is remembered matches the tables.** Rows fit into tokens, missing rows are errors, and owners are found by
the rows. After any history every remembered symbol is the one its row describes; what a token resolves to is
remembered from then on, and a type that does not resolve leaves no trace. -/
theorem remembered_matches_tables (m : LoadedModule) (hb : m.reader.Bounded) (ho : m.reader.ownerOf = m.reader.owner)
    (asks : List Ask) :
    (∀ token t, (m.after asks).type? token = some t → ∃ row, row ≠ 0 ∧ row ≤ m.reader.rowCount .typeDef ∧
      token = .ofParts .typeDef row ∧ m.DescribesType (m.after asks) row t) ∧
    (∀ token x, (m.after asks).method? token = some x → ∃ row, row ≠ 0 ∧ row ≤ m.reader.rowCount .methodDef ∧
      token = .ofParts .methodDef row ∧ m.DescribesMethod (m.after asks) row x) ∧
    (∀ token t, ((m.resolveType token).runFrom (m.after asks)).1 = .ok t →
      token.selects .typeDef = true ∧ (m.after (asks ++ [.type token])).type? token = some t) ∧
    (∀ token x, ((m.resolveMethod token).runFrom (m.after asks)).1 = .ok x →
      (m.after (asks ++ [.method token])).method? token = some x) ∧
    ∀ token e, ((m.resolveType token).runFrom (m.after asks)).1 = .error e →
      m.after (asks ++ [.type token]) = m.after asks := by
  have h := m.after_coherent asks
  refine ⟨?_, ?_, ?_, ?_, ?_⟩
  · intro token t ht
    obtain ⟨row, hr, hat⟩ := h.types token t ht
    obtain ⟨typeRow, hrow, -⟩ := hat.fields
    obtain ⟨h0, hle⟩ := hb.typeRow row typeRow hrow
    exact ⟨row, h0, hle, hr, hat.describes h hb⟩
  · intro token x hx
    have hat := h.methods token x hx
    obtain ⟨hsel, h0, hle⟩ := checkToken_eq_ok_iff.1 hat.selected
    have htoken := Token.eq_ofParts hsel
    exact ⟨token.row, h0, hle, htoken, hat.describes h hb ho htoken⟩
  · intro token t ht
    have hsel : token.selects .typeDef = true := by
      cases hc : m.checkToken token .typeDef .type with
      | ok _ => exact (checkToken_eq_ok_iff.1 hc).1
      | error e => rw [resolveType, Action.runFrom_bind, Action.runFrom_lift, hc] at ht; cases ht
    refine ⟨hsel, ?_⟩
    have hk := (resolveType_sound token h).answers t ht
    rw [← Token.eq_ofParts hsel] at hk
    rw [after_append]
    exact hk
  · intro token x hx
    rw [after_append]
    exact (resolveMethod_sound token h).answers x hx
  · intro token e he
    rw [after_append]
    exact resolveType_fail he

/-- the step method of the sample, once resolved, is remembered as its row describes it -/
theorem remembered_matches_tables_sample :
    Image.sample.view.reader.Bounded ∧ Image.sample.view.reader.ownerOf = Image.sample.view.reader.owner ∧
      ∃ x, (Image.sample.view.after [.method (.ofParts .methodDef 2)]).method? (.ofParts .methodDef 2) = some x ∧
        ∃ row, Token.ofParts .methodDef 2 = .ofParts .methodDef row ∧
          Image.sample.view.DescribesMethod (Image.sample.view.after [.method (.ofParts .methodDef 2)]) row x := by
  have hb : Image.sample.view.reader.Bounded := Image.bounded_of_size (by decide) (by decide)
  obtain ⟨x, hx⟩ := Image.sample_resolves
  have hk := (remembered_matches_tables Image.sample.view hb rfl []).2.2.2.1 _ x hx
  obtain ⟨row, -, -, hrow, hd⟩ :=
    (remembered_matches_tables Image.sample.view hb rfl [.method (.ofParts .methodDef 2)]).2.1 _ x hk
  exact ⟨hb, rfl, x, hk, row, hrow, hd⟩

end FrameSymbols.LoadedModule
