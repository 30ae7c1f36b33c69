/-
Which methods are proven to be behind a step method.

A candidate is proven when its own attribute leads back to the type of the step method (`provesAt`). That type is
remembered, so the answer is the same in every later memory (`leadsTo_stable`), and asking the candidates one after
the other is a filter (`declaring_answer`). `provenance_by_attribute` puts this together with the members of the
enclosing type: it says for every method that a view has resolved, after any history, what its provenance is.
-/
import FrameSymbols.Proofs.Image.Rows
import FrameSymbols.Proofs.Module.NamedTypes

namespace FrameSymbols

/-- the text argument of the first attribute of a type on the method of a row, if it can be read and is not null -/
def Reader.argumentAt (reader : Reader) (a : AttributeType) (row : UInt32) : Option String :=
  ((reader.attributes (.ofParts .methodDef row)).find? a.isOf).bind fun applied =>
    (Blob.argument applied.value).toOption.join

/-- the name of the state machine that the method of a row declares -/
def Reader.declaredAt (reader : Reader) (row : UInt32) : Option String :=
  (reader.argumentAt .asyncStateMachine row).or (reader.argumentAt .iteratorStateMachine row)

namespace LoadedModule

variable {m : LoadedModule} {memory : Memory}

/-- the argument on a method of this module is that of the first attribute of the type on its row -/
theorem attributeArgument_eq {x : MethodSymbol} {row : UInt32} (hx : x.origin = m.originOf (.ofParts .methodDef row))
    (a : AttributeType) :
    m.attributeArgument x a = ((m.reader.attributes (.ofParts .methodDef row)).find? a.isOf).elim (.ok none)
      (Blob.argument ·.value) := by
  unfold attributeArgument
  rw [hx, ownRow_originOf]
  simp only [bind, Except.bind, Token.ofParts_row_ofParts]
  cases (m.reader.attributes (.ofParts .methodDef row)).find? a.isOf <;> rfl

theorem attributeArgument_ofRow {x : MethodSymbol} {row : UInt32} (hx : x.origin = m.originOf (.ofParts .methodDef row))
    (a : AttributeType) : (m.attributeArgument x a).toOption.join = m.reader.argumentAt a row := by
  rw [attributeArgument_eq hx, Reader.argumentAt]
  cases (m.reader.attributes (.ofParts .methodDef row)).find? a.isOf <;> rfl

theorem declaredName_ofRow {x : MethodSymbol} {row : UInt32} (hx : x.origin = m.originOf (.ofParts .methodDef row)) :
    m.declaredName x = m.reader.declaredAt row := by
  simp only [declaredName, AttributeType.stateMachine, List.findSome?_cons, List.findSome?_nil,
    attributeArgument_ofRow hx, Reader.declaredAt]
  cases m.reader.argumentAt .asyncStateMachine row <;> cases m.reader.argumentAt .iteratorStateMachine row <;> rfl

/-! ## Asking the candidates -/

/-- the method of a row declares the definition of `t` -/
def provesAt (m : LoadedModule) (memory : Memory) (t : TypeSymbol) (row : UInt32) : Bool :=
  (m.reader.declaredAt row).any (m.leadsTo memory t)

/-- for a remembered type it does not matter what else is remembered -/
theorem leadsTo_stable {after : Memory} (h : m.Coherent memory) (h' : m.Coherent after) (hg : memory.Extends after)
    {token : Token} {t : TypeSymbol} (ht : memory.type? token = some t) : m.leadsTo after t = m.leadsTo memory t := by
  funext text
  rw [Bool.eq_iff_iff, leadsTo_iff h ht, leadsTo_iff h' (hg.types _ _ ht)]

theorem declares_answer (m : LoadedModule) (t : TypeSymbol) (x : MethodSymbol) (memory : Memory) :
    ((m.declares t.definition x).runFrom memory).1 = .ok ((m.declaredName x).any (m.leadsTo memory t)) := by
  unfold declares leadsTo
  cases m.declaredName x with
  | none => rfl
  | some text =>
    simp only [Action.runFrom_bind, Action.runFrom_toOption, Option.any_some]
    cases ((m.typeForName text).runFrom memory).1 <;> rfl

theorem declaring_answer (h : m.Coherent memory) {token : Token} {t : TypeSymbol} (ht : memory.type? token = some t)
    (xs : List MethodSymbol) :
    ((m.declaring t.definition xs).runFrom memory).1 =
      .ok (xs.filter fun x => (m.declaredName x).any (m.leadsTo memory t)) := by
  induction xs generalizing memory with
  | nil => rfl
  | cons x xs ih =>
    have hs := declares_sound t.definition x h
    have ha := m.declares_answer t x memory
    unfold declaring
    rw [Action.runFrom_bind]
    rcases hrun : (m.declares t.definition x).runFrom memory with ⟨answer, memory'⟩
    obtain ⟨hk, hg, -⟩ := hs
    rw [hrun] at ha hk hg
    simp only at ha hk hg
    subst ha
    -- the rest is asked in a later memory, where the same names lead to the type
    have ih' := ih hk (hg.types _ _ ht)
    rw [leadsTo_stable h hk hg ht] at ih'
    rcases hrest : (m.declaring t.definition xs).runFrom memory' with ⟨answer, memory''⟩
    rw [hrest] at ih'
    simp only at ih'
    subst ih'
    simp only [Action.runFrom_bind, hrest, Action.runFrom_pure, List.filter_cons]

/-! ## The provenance of a resolved method -/

/-- what the provenance of a method of this module asks, in order -/
theorem runFrom_provenance {x : MethodSymbol} (hx : x.origin.module? = some m.id) (memory : Memory) :
    (m.provenance x).runFrom memory = match stepSourceName? x.containing with
      | none => (.ok (.ordinary x), memory)
      | some name => match x.containing.containing with
        | none => (.ok (.unproven x), memory)
        | some outer => match (m.members outer name).runFrom memory with
          | (.error _, memory') => (.ok (.unproven x), memory')
          | (.ok found, memory') =>
            match (m.declaring x.containing.definition (methodsAmong found)).runFrom memory' with
            | (proven, memory'') => (proven.map (.ofProven x), memory'') := by
  unfold provenance
  have hm : x.origin.module?.filter (· != m.id) = none := by simp [hx]
  rw [hm]
  simp only
  cases stepSourceName? x.containing with
  | none => rfl
  | some name =>
    simp only
    cases x.containing.containing with
    | none => rfl
    | some outer =>
      simp only [Action.runFrom_bind, Action.runFrom_toOption]
      rcases (m.members outer name).runFrom memory with ⟨_ | found, memory'⟩
      · rfl
      · simp only [Except.toOption, Action.runFrom_bind]
        rcases (m.declaring x.containing.definition (methodsAmong found)).runFrom memory' with ⟨_ | _, _⟩ <;> rfl

theorem rel_filter_shown {after : Memory} {rows : List UInt32} {xs : List MethodSymbol} {p : UInt32 → Bool}
    {q : MethodSymbol → Bool} (h : List.Forall₂ (fun row y => after.method? (.ofParts .methodDef row) = some y) rows xs)
    (hpq : ∀ row y, after.method? (.ofParts .methodDef row) = some y → p row = q y) :
    List.Forall₂ (fun row y => after.method? (.ofParts .methodDef row) = some y) (rows.filter p) (xs.filter q) :=
  List.rel_filter (fun row y hy => by simp only [hpq row y hy]) h

/-- the members of a remembered type that are methods, and which of them are proven -/
theorem declaring_members (h : m.Coherent memory) {token outerToken : Token} {t outer : TypeSymbol}
    (ht : memory.type? token = some t) (ho : memory.type? outerToken = some outer) {name : String} {found : List Symbol}
    {memory' : Memory} (hrun : (m.members outer name).runFrom memory = (.ok found, memory')) :
    ∃ run symbols, m.reader.methodsOf outerToken.row = .ok run ∧
      ((m.declaring t.definition (methodsAmong found)).runFrom memory').1 = .ok symbols ∧
      List.Forall₂
        (fun row y =>
          ((m.declaring t.definition (methodsAmong found)).runFrom memory').2.method? (.ofParts .methodDef row) = some y)
        (((rowsFrom run.start run.size).filter (m.showsMethod name)).filter (m.provesAt memory t)) symbols := by
  obtain ⟨hk, hg, ha⟩ := members_sound outer name h
  rw [hrun] at hk hg ha
  simp only at hk hg ha
  obtain ⟨row, run, hown, hmethods, hshown, -⟩ := ha found rfl
  have hrow : row = outerToken.row := by
    rw [h.type_origin ho] at hown
    unfold ownRow originOf at hown
    simp only [ne_eq, not_true_eq_false, if_false] at hown
    split at hown <;> cases hown
    rfl
  obtain ⟨hk', hg', -⟩ := declaring_sound t.definition (methodsAmong found) hk
  refine ⟨run, _, by rw [← hrow]; exact hmethods, declaring_answer hk (hg.types _ _ ht) _, ?_⟩
  rw [leadsTo_stable h hk hg ht]
  apply rel_filter_shown
  · refine hshown.imp ?_
    intro row' y hy
    obtain ⟨x, hx, hxy⟩ := hy
    rcases viewed_cases hxy with ⟨hi, -⟩ | ⟨-, rfl⟩
    · rw [h.type_isInstance ho] at hi
      cases hi
    · exact hg'.methods _ _ hx
  · intro row' y hy
    rw [provesAt, declaredName_ofRow (hk'.method_origin hy).1]

theorem stepSourceName?_eq_some_iff {t : TypeSymbol} {name : String} :
    stepSourceName? t = some name ↔ ∃ g, GeneratedName.parse? t.name.toList = some g ∧ g.kind = .stateMachineType ∧
      String.ofList g.sourceName = name := by
  unfold stepSourceName? GeneratedName.sourceName?
  cases GeneratedName.parse? t.name.toList with
  | none => simp
  | some g =>
    by_cases hk : GeneratedName.Kind.stateMachineType = g.kind
    · simp [← hk]
    · simp [hk, Ne.symm hk]

theorem stepSourceName?_eq_none_iff {t : TypeSymbol} :
    stepSourceName? t = none ↔ ∀ g, GeneratedName.parse? t.name.toList = some g → g.kind ≠ .stateMachineType := by
  constructor
  · intro hn g hg hk
    have hs := stepSourceName?_eq_some_iff.2 ⟨g, hg, hk, rfl⟩
    rw [hn] at hs
    cases hs
  · intro h
    cases hs : stepSourceName? t with
    | none => rfl
    | some name =>
      obtain ⟨g, hg, hk, -⟩ := stepSourceName?_eq_some_iff.1 hs
      exact absurd hk (h g hg)

/-- a step method whose enclosing type has its members found comes from those that are proven -/
theorem provenance_of_members (h : m.Coherent memory) {token typeToken outerToken : Token} {x : MethodSymbol}
    (hx : memory.method? token = some x) (ht : memory.type? typeToken = some x.containing) {name : String}
    (hs : stepSourceName? x.containing = some name) {outer : TypeSymbol} (hc : x.containing.containing = some outer)
    (ho : memory.type? outerToken = some outer) {found : List Symbol} {memory' : Memory}
    (hmem : (m.members outer name).runFrom memory = (.ok found, memory')) :
    ∃ run proven, m.reader.methodsOf outerToken.row = .ok run ∧
      ((m.provenance x).runFrom memory).1 = .ok (.ofProven x proven) ∧
      List.Forall₂ (fun row y => ((m.provenance x).runFrom memory).2.method? (.ofParts .methodDef row) = some y)
        (((rowsFrom run.start run.size).filter (m.showsMethod name)).filter (m.provesAt memory x.containing))
        proven := by
  obtain ⟨run, proven, hmethods, hdecl, hshown⟩ := declaring_members h ht ho hmem
  have hrun := runFrom_provenance (h.method_module hx) memory
  rw [hs, hc] at hrun
  simp only [hmem] at hrun
  rcases hfin : (m.declaring x.containing.definition (methodsAmong found)).runFrom memory' with ⟨answer, memory''⟩
  rw [hfin] at hrun hdecl hshown
  simp only at hrun hdecl hshown
  subst hdecl
  refine ⟨run, proven, hmethods, ?_, ?_⟩
  · rw [hrun]
    rfl
  · rw [hrun]
    exact hshown

/-- a method that was resolved is remembered in every later memory -/
theorem remembered_of_resolved {before later : List Ask} {token : Token} {x : MethodSymbol}
    (hx : ((m.resolveMethod token).runFrom (m.after before)).1 = .ok x) :
    (m.after (before ++ .method token :: later)).method? token = some x := by
  have h := m.after_coherent before
  rw [after_append]
  exact (run_coherent later (resolveMethod_sound token h).keeps).2.methods _ _
    ((resolveMethod_sound token h).answers x hx)

/-- **Provenance is proof by attribute.** Take a method that a view has resolved, at any later time. It is ordinary
exactly when its type has no generated name of a state machine. Otherwise it is unproven if the type is not nested or
the members of the enclosing type cannot be found. If they can, the methods of the enclosing type's run that have the
source name, are imported, and declare a name that leads to the type are the candidates, in row order: none of them
leaves the method unproven, a single one is recovered, and of several the first one is given together with their
number. -/
theorem provenance_by_attribute (m : LoadedModule) (before later : List Ask) (token : Token) (x : MethodSymbol)
    (hx : ((m.resolveMethod token).runFrom (m.after before)).1 = .ok x) (memory after : Memory)
    (hm : memory = m.after (before ++ .method token :: later)) (ha : after = ((m.provenance x).runFrom memory).2) :
    ∃ p, ((m.provenance x).runFrom memory).1 = .ok p ∧
      (p = .ordinary x ↔ ∀ g, GeneratedName.parse? x.containing.name.toList = some g → g.kind ≠ .stateMachineType) ∧
      ∀ g, GeneratedName.parse? x.containing.name.toList = some g → g.kind = .stateMachineType →
        (x.containing.containing = none → p = .unproven x) ∧
        ∀ outer, x.containing.containing = some outer →
          (∀ e, ((m.members outer (.ofList g.sourceName)).runFrom memory).1 = .error e → p = .unproven x) ∧
          ∀ found, ((m.members outer (.ofList g.sourceName)).runFrom memory).1 = .ok found →
            ∃ outerToken run proven, outer.origin = m.originOf outerToken ∧
              m.reader.methodsOf outerToken.row = .ok run ∧
              List.Forall₂ (fun row y => after.method? (.ofParts .methodDef row) = some y)
                (((rowsFrom run.start run.size).filter (m.showsMethod (.ofList g.sourceName))).filter
                  (m.provesAt memory x.containing)) proven ∧
              (proven = [] → p = .unproven x) ∧ (∀ y, proven = [y] → p = .recovered y) ∧
              ∀ y z more, proven = y :: z :: more → p = .ambiguous y proven.length := by
  subst hm ha
  have h := m.after_coherent (before ++ .method token :: later)
  have hk : (m.after (before ++ .method token :: later)).method? token = some x := remembered_of_resolved hx
  revert h hk
  generalize m.after (before ++ .method token :: later) = memory
  intro h hk
  obtain ⟨horigin, owner, hcontaining⟩ := h.method_origin hk
  have hrun := runFrom_provenance (show x.origin.module? = some m.id by rw [horigin]; rfl) memory
  cases hs : stepSourceName? x.containing with
  | none =>
    have hnone := stepSourceName?_eq_none_iff.1 hs
    refine ⟨.ordinary x, by rw [hrun, hs], ⟨fun _ => hnone, fun _ => rfl⟩, ?_⟩
    intro g hg hkind
    exact absurd hkind (hnone g hg)
  | some name =>
    obtain ⟨g, hg, hkind, rfl⟩ := stepSourceName?_eq_some_iff.1 hs
    have hstep : ∀ p : Provenance, p ≠ .ordinary x → (p = .ordinary x ↔
        ∀ g, GeneratedName.parse? x.containing.name.toList = some g → g.kind ≠ .stateMachineType) :=
      fun p hp => iff_of_false hp fun hall => hall g hg hkind
    rw [hs] at hrun
    cases hc : x.containing.containing with
    | none =>
      rw [hc] at hrun
      refine ⟨.unproven x, by rw [hrun], hstep _ (by simp), ?_⟩
      intro _ _ _
      exact ⟨fun _ => rfl, nofun⟩
    | some outer =>
      obtain ⟨encloser, houter⟩ := h.containing_remembered hcontaining hc
      rcases hmem : (m.members outer (.ofList g.sourceName)).runFrom memory with ⟨e | found, memory'⟩
      · rw [hc] at hrun
        simp only [hmem] at hrun
        refine ⟨.unproven x, by rw [hrun], hstep _ (by simp), ?_⟩
        intro g' hg' _
        rw [hg, Option.some.injEq] at hg'
        subst hg'
        refine ⟨fun _ => rfl, ?_⟩
        rintro outer' ⟨⟩
        refine ⟨fun _ _ => rfl, ?_⟩
        intro found hf
        rw [hmem] at hf
        cases hf
      · obtain ⟨run, proven, hmethods, hanswer, hshown⟩ := provenance_of_members h hk hcontaining hs hc houter hmem
        refine ⟨.ofProven x proven, hanswer, hstep _ ?_, ?_⟩
        · unfold Provenance.ofProven
          split <;> simp
        · intro g' hg' _
          rw [hg, Option.some.injEq] at hg'
          subst hg'
          refine ⟨nofun, ?_⟩
          rintro outer' ⟨⟩
          constructor
          · intro e he
            rw [hmem] at he
            cases he
          · intro found' _
            refine ⟨.ofParts .typeDef encloser, run, proven, h.type_origin houter, hmethods, hshown, ?_, ?_, ?_⟩
            · rintro rfl; rfl
            · rintro y rfl; rfl
            · rintro y z more rfl; rfl

/-- the step method of the sample is not ordinary: the name of its type is that of a state machine -/
theorem provenance_by_attribute_sample :
    ∃ x p, ((Image.sample.view.resolveMethod (.ofParts .methodDef 2)).runFrom (Image.sample.view.after [])).1 = .ok x ∧
      ((Image.sample.view.provenance x).runFrom (Image.sample.view.after [.method (.ofParts .methodDef 2)])).1 = .ok p ∧
      p ≠ .ordinary x := by
  have hok : (match
        ((Image.sample.view.resolveMethod (.ofParts .methodDef 2)).runFrom (Image.sample.view.after [])).1 with
      | .ok x => GeneratedName.parse? x.containing.name.toList ==
          some ⟨false, ['F', 'o', 'o'], .stateMachineType, ['_', '_', '0']⟩
      | .error _ => false) = true := by
    decide +kernel
  cases hx : ((Image.sample.view.resolveMethod (.ofParts .methodDef 2)).runFrom (Image.sample.view.after [])).1 with
  | error e => rw [hx] at hok; cases hok
  | ok x =>
    rw [hx] at hok
    simp only [beq_iff_eq] at hok
    obtain ⟨p, hp, hordinary, -⟩ :=
      provenance_by_attribute Image.sample.view [] [] (.ofParts .methodDef 2) x hx _ _ rfl rfl
    exact ⟨x, p, rfl, hp, fun h => hordinary.1 h _ hok rfl⟩

end LoadedModule

end FrameSymbols
