/-
Which methods are behind the methods of a type.

The tables decide (`stepSources`): these are the methods of the enclosing type that have the name which is embedded in the
name of the type, are imported, and have an attribute that leads back to it. A remembered method comes from them, as long as
the members of the enclosing type can be listed (`provenance_cases`), which in a regular reader they can
(`provenance_regular`); if there are none it stands for itself, and otherwise the first one stands for it
(`provenance_by_type`).
-/
import FrameSymbols.Proofs.Module.Regular
import FrameSymbols.Proofs.Provenance.ByAttribute

namespace FrameSymbols

namespace Provenance

theorem method_ofProven (x : MethodSymbol) (proven : List MethodSymbol) :
    (ofProven x proven).method = proven.headD x := by
  match proven with
  | [] | [_] | _ :: _ :: _ => rfl

theorem isRecovered_ofProven (x : MethodSymbol) (proven : List MethodSymbol) :
    (ofProven x proven).isRecovered = true ↔ 0 < proven.length := by
  match proven with
  | [] | [_] | _ :: _ :: _ => simp [ofProven, isRecovered]

end Provenance

namespace LoadedModule

variable {m : LoadedModule} {memory : Memory}

/-- whether the state machine that the method of a row declares is named like the row of a type -/
def declaresAt (m : LoadedModule) (t : TypeSymbol) (row : UInt32) : Bool :=
  ((m.reader.declaredAt row).bind m.rowOfName).any fun named => m.originOf (.ofParts .typeDef named) == t.origin

/-- for a remembered type, a name leads to it when the tables give it to its row -/
theorem provesAt_eq_declaresAt (h : m.Coherent memory) {token : Token} {t : TypeSymbol}
    (ht : memory.type? token = some t) : m.provesAt memory t = m.declaresAt t := by
  funext row
  rw [Bool.eq_iff_iff, provesAt, declaresAt, Option.any_eq_true, Option.any_eq_true]
  simp only [leadsTo_iff h ht, h.type_origin ht, originOf, beq_iff_eq, Origin.metadata.injEq, true_and,
    Option.bind_eq_some_iff]
  constructor
  · rintro ⟨text, htext, named, hnamed, htoken⟩
    exact ⟨named, ⟨text, htext, hnamed⟩, htoken⟩
  · rintro ⟨named, ⟨text, htext, hnamed⟩, htoken⟩
    exact ⟨text, htext, named, hnamed, htoken⟩

/-- the rows of the methods behind the methods of a type: those of the enclosing type with the source name that are
imported and declare the type -/
def stepSources (m : LoadedModule) (t : TypeSymbol) : List UInt32 :=
  match stepSourceName? t, t.containing with
  | some name, some outer =>
    match (m.ownRow outer.origin .typeDef).bind m.reader.methodsOf with
    | .ok run => ((rowsFrom run.start run.size).filter (m.showsMethod name)).filter (m.declaresAt t)
    | .error _ => []
  | _, _ => []

theorem stepSources_eq {t outer : TypeSymbol} {name : String} (hs : stepSourceName? t = some name)
    (hc : t.containing = some outer) {encloser : UInt32} (ho : outer.origin = m.originOf (.ofParts .typeDef encloser))
    {run : RowRange} (hrun : m.reader.methodsOf (Token.ofParts .typeDef encloser).row = .ok run) :
    m.stepSources t = ((rowsFrom run.start run.size).filter (m.showsMethod name)).filter (m.declaresAt t) := by
  simp only [stepSources, hs, hc, ho, ownRow_originOf, Except.bind, hrun]

/-- a remembered method is ordinary if its type is not named like a state machine; otherwise it comes from the methods
behind its type, or is left as it is because the members of the enclosing type cannot be listed -/
theorem provenance_cases (h : m.Coherent memory) {token : Token} {x : MethodSymbol}
    (hx : memory.method? token = some x) :
    (stepSourceName? x.containing = none ∧ ((m.provenance x).runFrom memory).1 = .ok (.ordinary x)) ∨
    ∃ name, stepSourceName? x.containing = some name ∧
      ((∃ proven, ((m.provenance x).runFrom memory).1 = .ok (.ofProven x proven) ∧
          List.Forall₂ (fun row y => ((m.provenance x).runFrom memory).2.method? (.ofParts .methodDef row) = some y)
            (m.stepSources x.containing) proven) ∨
        ((m.provenance x).runFrom memory).1 = .ok (.unproven x) ∧
          ∃ outer e, x.containing.containing = some outer ∧ ((m.members outer name).runFrom memory).1 = .error e) := by
  obtain ⟨-, owner, hcontaining⟩ := h.method_origin hx
  have hrun := runFrom_provenance (h.method_module hx) memory
  cases hs : stepSourceName? x.containing with
  | none =>
    rw [hs] at hrun
    exact .inl ⟨rfl, congrArg Prod.fst hrun⟩
  | some name =>
    refine .inr ⟨name, rfl, ?_⟩
    cases hc : x.containing.containing with
    | none =>
      rw [hs, hc] at hrun
      refine .inl ⟨[], congrArg Prod.fst hrun, ?_⟩
      simp [stepSources, hs, hc]
    | some outer =>
      obtain ⟨encloser, houter⟩ := h.containing_remembered hcontaining hc
      rcases hmem : (m.members outer name).runFrom memory with ⟨e | found, memory'⟩
      · rw [hs, hc] at hrun
        simp only [hmem] at hrun
        exact .inr ⟨congrArg Prod.fst hrun, outer, e, rfl, by rw [hmem]⟩
      · obtain ⟨run, proven, hmethods, hanswer, hshown⟩ := provenance_of_members h hx hcontaining hs hc houter hmem
        rw [provesAt_eq_declaresAt h hcontaining, ← stepSources_eq hs hc (h.type_origin houter) hmethods] at hshown
        exact .inl ⟨proven, hanswer, hshown⟩

/-- in a regular reader, the methods behind those of a type belong to the type around it -/
theorem containing_of_stepSource (hr : m.reader.Regular) (h : m.Coherent memory) {token : Token} {t : TypeSymbol}
    (ht : memory.type? token = some t) {row : UInt32} (hrow : row ∈ m.stepSources t) {y : MethodSymbol}
    (hy : memory.method? (.ofParts .methodDef row) = some y) : t.containing = some y.containing := by
  cases hs : stepSourceName? t with
  | none => simp [stepSources, hs] at hrow
  | some name =>
    cases hc : t.containing with
    | none => simp [stepSources, hs, hc] at hrow
    | some outer =>
      obtain ⟨encloser, h0, hle, houter⟩ := h.encloser_remembered ht hc
      obtain ⟨run, hrun, -, hmem⟩ := methodsOf_spec hr h0 hle
      have hencloser : (Token.ofParts .typeDef encloser).row = encloser :=
        Token.row_ofParts_of_le (UInt32.le_trans hle hr.bounded.types)
      rw [stepSources_eq hs hc (h.type_origin houter) (by rw [hencloser]; exact hrun), List.mem_filter, List.mem_filter,
        hmem] at hrow
      -- the row has its owner in its token, where the enclosing type is remembered
      have howner : m.reader.owner row = .ok encloser := hrow.1.1
      have hrowOf : (Token.ofParts .methodDef row).row = row :=
        Token.row_ofParts_of_le (UInt32.le_trans (Tables.method_range_of_owner howner).2 hr.bounded.methods)
      obtain ⟨owner, ho, hk⟩ := h.method_owner hy
      rw [hrowOf, hr.ownerOf, howner, Except.ok.injEq] at ho
      rw [← hk, ← ho, houter]

/-- in a regular reader the members of the enclosing type can be listed, so a remembered method is ordinary or comes from
the methods behind its type, which belong to the enclosing type -/
theorem provenance_regular (hr : m.reader.Regular) (h : m.Coherent memory) {token : Token} {x : MethodSymbol}
    (hx : memory.method? token = some x) :
    (stepSourceName? x.containing = none ∧ ((m.provenance x).runFrom memory).1 = .ok (.ordinary x)) ∨
    stepSourceName? x.containing ≠ none ∧
      ∃ proven, ((m.provenance x).runFrom memory).1 = .ok (.ofProven x proven) ∧
        List.Forall₂ (fun row y => ((m.provenance x).runFrom memory).2.method? (.ofParts .methodDef row) = some y)
          (m.stepSources x.containing) proven ∧
        ∀ y ∈ proven, x.containing.containing = some y.containing := by
  obtain ⟨-, owner, hcontaining⟩ := h.method_origin hx
  rcases provenance_cases h hx with hordinary | ⟨name, hs, ⟨proven, hanswer, hshown⟩ | ⟨-, outer, e, hc, he⟩⟩
  · exact .inl hordinary
  · obtain ⟨hkeeps, hgrows, -⟩ := provenance_sound x h
    refine .inr ⟨by rw [hs]; exact Option.some_ne_none name, proven, hanswer, hshown, fun y hy => ?_⟩
    obtain ⟨row, hrow, hk⟩ := shown_of_mem ((List.forall₂_and_left _ _).2 ⟨fun _ hrow => hrow, hshown⟩) hy
    exact containing_of_stepSource hr hkeeps (hgrows.types _ _ hcontaining) hrow hk
  · obtain ⟨encloser, h0, hle, houter⟩ := h.encloser_remembered hcontaining hc
    obtain ⟨found, hfound⟩ := members_answers hr h houter h0 hle name
    rw [hfound] at he
    cases he

/-- in a regular reader a remembered method stands for itself if there are no methods behind its type, and otherwise comes
from a method that is remembered by then and belongs to the enclosing type -/
theorem provenance_outward (hr : m.reader.Regular) (h : m.Coherent memory) {token : Token} {x : MethodSymbol}
    (hx : memory.method? token = some x) :
    ∃ p, ((m.provenance x).runFrom memory).1 = .ok p ∧
      (p.isRecovered = false ∧ m.stepSources x.containing = [] ∧ p.method = x ∨
        p.isRecovered = true ∧ m.stepSources x.containing ≠ [] ∧ x.containing.containing = some p.method.containing ∧
          ∃ source, ((m.provenance x).runFrom memory).2.method? source = some p.method) := by
  rcases provenance_regular hr h hx with ⟨hs, hp⟩ | ⟨-, proven, hp, hshown, houter⟩
  · exact ⟨_, hp, .inl ⟨rfl, by simp [stepSources, hs], rfl⟩⟩
  · refine ⟨_, hp, ?_⟩
    rw [Provenance.method_ofProven]
    generalize m.stepSources x.containing = rows at hshown ⊢
    cases hshown with
    | nil => exact .inl ⟨rfl, rfl, rfl⟩
    | @cons row y rows proven hrow hrest =>
      refine .inr ⟨(Provenance.isRecovered_ofProven x _).2 (Nat.succ_pos _), List.cons_ne_nil _ _, ?_, _, hrow⟩
      exact houter y List.mem_cons_self

/-- the provenance of a remembered method is decided by its type, as long as the members of the enclosing type can be
listed -/
theorem provenance_by_type (h : m.Coherent memory) {token : Token} {x : MethodSymbol}
    (hx : memory.method? token = some x) :
    ∃ p, ((m.provenance x).runFrom memory).1 = .ok p ∧ (m.stepSources x.containing = [] → p.method = x) ∧
      ∀ row more, m.stepSources x.containing = row :: more →
        ((m.provenance x).runFrom memory).2.method? (.ofParts .methodDef row) = some p.method ∨
        p.method = x ∧ ∃ outer name e, x.containing.containing = some outer ∧
          stepSourceName? x.containing = some name ∧ ((m.members outer name).runFrom memory).1 = .error e := by
  rcases provenance_cases h hx with ⟨hs, hanswer⟩ | ⟨name, hs, ⟨proven, hanswer, hshown⟩ | ⟨hanswer, outer, e, hc, he⟩⟩
  · refine ⟨.ordinary x, hanswer, fun _ => rfl, fun row more hsources => ?_⟩
    simp [stepSources, hs] at hsources
  · refine ⟨.ofProven x proven, hanswer, fun hnone => ?_, fun row more hsources => .inl ?_⟩
    · rw [hnone, List.forall₂_nil_left_iff] at hshown
      rw [Provenance.method_ofProven, hshown]
      rfl
    · rw [hsources] at hshown
      obtain ⟨y, rest, hy, -, rfl⟩ := List.forall₂_cons_left_iff.1 hshown
      rw [Provenance.method_ofProven]
      exact hy
  · exact ⟨.unproven x, hanswer, fun _ => rfl, fun row more _ => .inr ⟨rfl, outer, name, e, hc, hs, he⟩⟩

end LoadedModule

end FrameSymbols
