/-
What was asked before, and what a token resolves to.

A history never changes an answer that a fresh view gives, and it changes an error in one case only: the walk over the
enclosing types fails on a fresh view, but after the history it meets a row that is remembered (`Rescued`). Then the
type resolves. `resolve_after_history` says exactly this for types and methods, and that in a bounded reader the case
needs more than `maxNesting` enclosing types. `tower_resolves_by_history` shows that it arises.
-/
import FrameSymbols.Proofs.Image.Rows

namespace FrameSymbols

/-- two outcomes are the same: equal symbols, or the same error -/
def SameOutcome {α : Type} (same : α → α → Bool) : Except Error α → Except Error α → Prop
  | .ok a, .ok b => same a b = true
  | .error e, .error e' => e = e'
  | _, _ => False

/-- one type in another, 66 deep -/
def Image.tower : Image :=
  ((empty "Tower.dll" ⟨.replicate 16 7⟩).addAll
    (.type "" "T" 1 :: (List.range 65).map fun i => .nestedType (.ofParts .typeDef (.ofNat (i + 1))) "T" 2)).1

namespace LoadedModule

/-- the walk from a row fails by itself and meets a row that is remembered -/
def Rescued (m : LoadedModule) (memory : Memory) (row : UInt32) : Prop :=
  (walk m.reader (maxNesting + 1) row).2 ≠ none ∧ m.Meets memory (maxNesting + 1) row

variable {m : LoadedModule} {memory : Memory}

/-- the types remembered for one row in two coherent memories are the same -/
theorem same_of_remembered {memory' : Memory} (h : m.Coherent memory) (h' : m.Coherent memory') {token : Token}
    {t u : TypeSymbol} (ht : memory.type? token = some t) (hu : memory'.type? token = some u) : t.same u = true := by
  refine TypeSymbol.same_of_origin (h.type_plain ht).2 (h'.type_plain hu).2 ?_ ?_
  · rw [h.type_origin ht, h'.type_origin hu]
  · rw [h.type_origin ht]; rfl

theorem typeOfRow_fresh_fail {row : UInt32} {e : Error} (hw : (walk m.reader (maxNesting + 1) row).2 = some e) :
    (m.typeOfRow row).runFrom .empty = (.error e, .empty) :=
  runFrom_typeSymbol_fail hw (m.not_meets_empty _ _)

/-- a type that is not rescued has the same outcome as on a fresh view -/
theorem typeOfRow_same (h : m.Coherent memory) {row : UInt32} (hr : ¬ m.Rescued memory row) :
    SameOutcome TypeSymbol.same ((m.typeOfRow row).runFrom .empty).1 ((m.typeOfRow row).runFrom memory).1 := by
  cases hw : (walk m.reader (maxNesting + 1) row).2 with
  | some e =>
    have hn : ¬ m.Meets memory (maxNesting + 1) row := fun hm => hr ⟨by simp [hw], hm⟩
    have hrun : (m.typeOfRow row).runFrom memory = (.error e, memory) := runFrom_typeSymbol_fail hw hn
    rw [typeOfRow_fresh_fail hw, hrun]
    rfl
  | none =>
    obtain ⟨t, ht⟩ : ∃ t, ((m.typeOfRow row).runFrom .empty).1 = .ok t := typeSymbol_answers (.inl hw)
    obtain ⟨u, hu⟩ : ∃ u, ((m.typeOfRow row).runFrom memory).1 = .ok u := typeSymbol_answers (.inl hw)
    have hs := typeOfRow_sound row m.coherent_empty
    have hs' := typeOfRow_sound row h
    rw [ht, hu]
    exact same_of_remembered hs.keeps hs'.keeps (hs.answers t ht) (hs'.answers u hu)

/-- a rescued type resolves, although it fails on a fresh view -/
theorem typeOfRow_rescued {row : UInt32} (hr : m.Rescued memory row) :
    (∃ e, ((m.typeOfRow row).runFrom .empty).1 = .error e) ∧ ∃ t, ((m.typeOfRow row).runFrom memory).1 = .ok t := by
  obtain ⟨hw, hm⟩ := hr
  obtain ⟨e, he⟩ := Option.ne_none_iff_exists'.1 hw
  exact ⟨⟨e, by rw [typeOfRow_fresh_fail he]⟩, typeSymbol_answers (.inr hm)⟩

/-- what resolving a method asks, in order -/
theorem runFrom_resolveMethod (m : LoadedModule) (token : Token) (memory : Memory) :
    (m.resolveMethod token).runFrom memory = match m.checkToken token .methodDef .method with
      | .error e => (.error e, memory)
      | .ok _ => match memory.method? token with
        | some known => (.ok known, memory)
        | none => match m.reader.ownerOf token.row with
          | .error e => (.error e, memory)
          | .ok owner => match (m.typeOfRow owner).runFrom memory with
            | (.error e, memory') => (.error e, memory')
            | (.ok declaring, memory') => match m.reader.methodRow token.row with
              | .error e => (.error e, memory')
              | .ok row => (.ok (.ofRow row (m.originOf token) declaring),
                  memory'.keepMethod token (.ofRow row (m.originOf token) declaring)) := by
  unfold resolveMethod
  rw [Action.runFrom_bind, Action.runFrom_lift]
  cases m.checkToken token .methodDef .method with
  | error e => rfl
  | ok _ =>
    simp only [Action.runFrom_bind, Action.runFrom_get]
    cases memory.method? token with
    | some known => rfl
    | none =>
      simp only [Action.runFrom_bind, Action.runFrom_lift]
      cases m.reader.ownerOf token.row with
      | error e => rfl
      | ok owner =>
        simp only
        rcases (m.typeOfRow owner).runFrom memory with ⟨_ | declaring, memory'⟩
        · rfl
        · cases m.reader.methodRow token.row <;> rfl

/-- a method that is remembered is resolved as it is remembered -/
theorem resolveMethod_remembered (h : m.Coherent memory) {token : Token} {x : MethodSymbol}
    (hx : memory.method? token = some x) : ((m.resolveMethod token).runFrom memory).1 = .ok x := by
  rw [runFrom_resolveMethod, (h.methods token x hx).selected, hx]

/-- from a coherent memory a method is its row inside the type of its owner, remembered or not -/
theorem resolveMethod_answer (h : m.Coherent memory) (token : Token) :
    ((m.resolveMethod token).runFrom memory).1 = match m.checkToken token .methodDef .method with
      | .error e => .error e
      | .ok _ => match m.reader.ownerOf token.row with
        | .error e => .error e
        | .ok owner => match ((m.typeOfRow owner).runFrom memory).1 with
          | .error e => .error e
          | .ok declaring => (m.reader.methodRow token.row).map (.ofRow · (m.originOf token) declaring) := by
  rw [runFrom_resolveMethod]
  cases m.checkToken token .methodDef .method with
  | error e => rfl
  | ok _ =>
    cases hk : memory.method? token with
    | some known =>
      obtain ⟨methodRow, owner, hr, ho, hd, hx⟩ := (h.methods token known hk).fields
      -- the type of a remembered method is remembered too, so no walk is needed for it
      have hrun : (m.typeOfRow owner).runFrom memory = (.ok known.containing, memory) := by
        rw [typeOfRow, runFrom_typeSymbol_succ, hd]
      simp only [ho, hrun, hr, Except.map]
      rw [← hx]
    | none =>
      cases m.reader.ownerOf token.row with
      | error e => rfl
      | ok owner =>
        simp only
        rcases (m.typeOfRow owner).runFrom memory with ⟨_ | declaring, memory'⟩
        · rfl
        · cases m.reader.methodRow token.row <;> rfl

/-- the type of a token is rescued by what is remembered -/
def TypeRescued (m : LoadedModule) (memory : Memory) (token : Token) : Prop :=
  m.checkToken token .typeDef .type = .ok () ∧ m.Rescued memory token.row

/-- the type that owns the method of a token is rescued by what is remembered -/
def MethodRescued (m : LoadedModule) (memory : Memory) (token : Token) : Prop :=
  m.checkToken token .methodDef .method = .ok () ∧
    ∃ owner, m.reader.ownerOf token.row = .ok owner ∧ m.Rescued memory owner

theorem resolveType_same (h : m.Coherent memory) {token : Token} (hr : ¬ m.TypeRescued memory token) :
    SameOutcome TypeSymbol.same ((m.resolveType token).runFrom .empty).1 ((m.resolveType token).runFrom memory).1 := by
  rw [runFrom_resolveType, runFrom_resolveType]
  cases hc : m.checkToken token .typeDef .type with
  | error e => rfl
  | ok _ => exact typeOfRow_same h fun hrow => hr ⟨hc, hrow⟩

theorem resolveMethod_same (h : m.Coherent memory) {token : Token} (hr : ¬ m.MethodRescued memory token) :
    SameOutcome MethodSymbol.same ((m.resolveMethod token).runFrom .empty).1
      ((m.resolveMethod token).runFrom memory).1 := by
  rw [resolveMethod_answer m.coherent_empty, resolveMethod_answer h]
  cases hc : m.checkToken token .methodDef .method with
  | error e => rfl
  | ok _ =>
    cases ho : m.reader.ownerOf token.row with
    | error e => rfl
    | ok owner =>
      have hsame := typeOfRow_same h fun hrow => hr ⟨hc, owner, ho, hrow⟩
      revert hsame
      simp only
      rcases ((m.typeOfRow owner).runFrom .empty).1 with e | t <;>
        rcases ((m.typeOfRow owner).runFrom memory).1 with e' | u <;> intro hsame
      · exact hsame
      · exact hsame.elim
      · exact hsame.elim
      · cases m.reader.methodRow token.row with
        | error e => rfl
        | ok row => exact MethodSymbol.same_ofRow row hsame

theorem resolveMethod_rescued (h : m.Coherent memory) {token : Token} (hr : m.MethodRescued memory token) :
    (∃ e, ((m.resolveMethod token).runFrom .empty).1 = .error e) ∧
      (∀ e, m.reader.methodRow token.row = .error e → ((m.resolveMethod token).runFrom memory).1 = .error e) ∧
      ∀ row, m.reader.methodRow token.row = .ok row → ∃ x, ((m.resolveMethod token).runFrom memory).1 = .ok x := by
  obtain ⟨hc, owner, ho, hrow⟩ := hr
  obtain ⟨⟨e, he⟩, t, ht⟩ := typeOfRow_rescued hrow
  rw [resolveMethod_answer m.coherent_empty, resolveMethod_answer h]
  simp only [hc, ho, he, ht]
  refine ⟨⟨e, rfl⟩, ?_, ?_⟩
  · intro e' he'
    rw [he']
    rfl
  · intro row hr
    rw [hr]
    exact ⟨_, rfl⟩

/-- **What history decides.** After any history a token has the same outcome as on a fresh view, except where the walk
over the enclosing types meets a remembered row on a way that fails by itself. Such a type fails on a fresh view and
resolves later. In a bounded reader that takes more than `maxNesting` enclosing types, and the error is the recursion
limit. -/
theorem resolve_after_history (m : LoadedModule) (asks : List Ask) (token : Token) :
    (SameOutcome TypeSymbol.same ((m.resolveType token).runFrom .empty).1
      ((m.resolveType token).runFrom (m.after asks)).1 ↔ ¬ m.TypeRescued (m.after asks) token) ∧
    (m.TypeRescued (m.after asks) token → (∃ e, ((m.resolveType token).runFrom .empty).1 = .error e) ∧
      ∃ t, ((m.resolveType token).runFrom (m.after asks)).1 = .ok t) ∧
    (¬ m.MethodRescued (m.after asks) token → SameOutcome MethodSymbol.same
      ((m.resolveMethod token).runFrom .empty).1 ((m.resolveMethod token).runFrom (m.after asks)).1) ∧
    (m.MethodRescued (m.after asks) token → (∃ e, ((m.resolveMethod token).runFrom .empty).1 = .error e) ∧
      (∀ e, m.reader.methodRow token.row = .error e →
        ((m.resolveMethod token).runFrom (m.after asks)).1 = .error e) ∧
      ∀ row, m.reader.methodRow token.row = .ok row →
        ∃ x, ((m.resolveMethod token).runFrom (m.after asks)).1 = .ok x) ∧
    (m.reader.Bounded → ∀ row, row ≤ m.reader.rowCount .typeDef → m.Rescued (m.after asks) row →
      ((m.typeOfRow row).runFrom .empty).1 = .error (.recursionLimit maxNesting) ∧
        ∃ path, IsPath m.reader row path ∧ maxNesting < path.length) := by
  have h := m.after_coherent asks
  have hrescued : m.TypeRescued (m.after asks) token → (∃ e, ((m.resolveType token).runFrom .empty).1 = .error e) ∧
      ∃ t, ((m.resolveType token).runFrom (m.after asks)).1 = .ok t := by
    rintro ⟨hc, hr⟩
    rw [runFrom_resolveType, runFrom_resolveType, hc]
    exact typeOfRow_rescued hr
  refine ⟨⟨?_, resolveType_same h⟩, hrescued, resolveMethod_same h, resolveMethod_rescued h, ?_⟩
  · intro hs hr
    obtain ⟨⟨e, he⟩, t, ht⟩ := hrescued hr
    rw [he, ht] at hs
    exact hs
  · rintro hb row hrow ⟨hw, hm⟩
    obtain ⟨e, he⟩ := Option.ne_none_iff_exists'.1 hw
    obtain ⟨rfl, path, hp, hlong⟩ := hm.walk_fail h hb hrow he
    exact ⟨by rw [typeOfRow_fresh_fail he], path, hp, hlong⟩

/-- 65 types around a type are too many for a fresh view, but not once the type around it is remembered -/
theorem tower_resolves_by_history :
    ((Image.tower.view.resolveType (.ofParts .typeDef 66)).runFrom .empty).1 = .error (.recursionLimit maxNesting) ∧
      (∃ t, ((Image.tower.view.resolveType (.ofParts .typeDef 66)).runFrom
        (Image.tower.view.after [.type (.ofParts .typeDef 65)])).1 = .ok t) ∧
      ¬ SameOutcome TypeSymbol.same ((Image.tower.view.resolveType (.ofParts .typeDef 66)).runFrom .empty).1
        ((Image.tower.view.resolveType (.ofParts .typeDef 66)).runFrom
          (Image.tower.view.after [.type (.ofParts .typeDef 65)])).1 := by
  have hb : Image.tower.view.reader.Bounded := by
    have ht : Image.tower.types.size < 2 ^ 24 := by decide +kernel
    have hm : Image.tower.methods.size < 2 ^ 24 := by decide +kernel
    exact Image.bounded_of_size ht hm
  have hinner : (walk Image.tower.view.reader (maxNesting + 1) 65).2 = none := by decide +kernel
  have hfail : (walk Image.tower.view.reader (maxNesting + 1) 66).2 ≠ none := by decide +kernel
  have hvisits : (65 : UInt32) ∈ (walk Image.tower.view.reader (maxNesting + 1) 66).1 := by decide +kernel
  have hc65 : Image.tower.view.checkToken (.ofParts .typeDef 65) .typeDef .type = .ok () := by decide +kernel
  have hc66 : Image.tower.view.checkToken (.ofParts .typeDef 66) .typeDef .type = .ok () := by decide +kernel
  obtain ⟨t, ht⟩ : ∃ t, ((Image.tower.view.typeOfRow 65).runFrom .empty).1 = .ok t := typeSymbol_answers (.inl hinner)
  have hknown : (Image.tower.view.after [.type (.ofParts .typeDef 65)]).type? (.ofParts .typeDef 65) = some t := by
    have hrun := runFrom_resolveType Image.tower.view (.ofParts .typeDef 65) .empty
    rw [hc65] at hrun
    have hk := (typeOfRow_sound 65 Image.tower.view.coherent_empty).answers t ht
    show ((Image.tower.view.resolveType (.ofParts .typeDef 65)).runFrom .empty).2.type? _ = _
    rw [hrun]
    exact hk
  have hr : Image.tower.view.TypeRescued (Image.tower.view.after [.type (.ofParts .typeDef 65)])
      (.ofParts .typeDef 66) := by
    refine ⟨hc66, hfail, 65, hvisits, ?_⟩
    rw [hknown]
    exact Option.some_ne_none t
  have main := resolve_after_history Image.tower.view [.type (.ofParts .typeDef 65)] (.ofParts .typeDef 66)
  refine ⟨?_, (main.2.1 hr).2, ?_⟩
  · have hrow : (Token.ofParts .typeDef 66).row ≤ Image.tower.view.reader.rowCount .typeDef := by decide +kernel
    rw [runFrom_resolveType, hc66]
    exact (main.2.2.2.2 hb _ hrow hr.2).1
  · rw [main.1, not_not]
    exact hr

end LoadedModule

end FrameSymbols
