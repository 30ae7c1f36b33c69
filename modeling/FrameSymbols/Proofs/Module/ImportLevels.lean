/-
What the import level decides.

The views of one module at two levels (`seenAt`) decode the same symbols and have the same invariants; a level only decides
which members are left out, and a wider one leaves out fewer (`showsMethod_mono`, `showsType_mono`). So the members that are
told at the narrow level are, in their order, among those that are told at the wide one (`members_widen`), whatever was
asked of the two views before.
-/
import FrameSymbols.Proofs.Module.Members

namespace FrameSymbols

namespace ImportLevel

def width : ImportLevel → Nat
  | .publicOnly => 0
  | .withInternal => 1
  | .all => 2

/-- levels are compared by their width -/
instance : LE ImportLevel := ⟨fun narrow wide => narrow.width ≤ wide.width⟩

instance (narrow wide : ImportLevel) : Decidable (narrow ≤ wide) :=
  inferInstanceAs (Decidable (narrow.width ≤ wide.width))

end ImportLevel

theorem Reach.importedAt_mono {narrow wide : ImportLevel} (h : narrow ≤ wide) {r : Reach}
    (hr : r.importedAt narrow = true) : r.importedAt wide = true := by
  revert h hr
  cases r <;> cases narrow <;> cases wide <;> decide

/-- two lists told of rows, of which those of the first are among those of the second -/
theorem sublistForall₂_of_rows {α : Type} {R R' : UInt32 → α → Prop} {S : α → α → Prop}
    (h : ∀ row a b, R row a → R' row b → S a b) {rows rows' : List UInt32} (hsub : rows.Sublist rows') {xs ys : List α}
    (hx : List.Forall₂ R rows xs) (hy : List.Forall₂ R' rows' ys) : List.SublistForall₂ S xs ys := by
  induction hsub generalizing xs ys with
  | slnil => cases hx; exact .nil
  | cons row _ ih =>
    cases hy with
    | cons _ hy => exact .cons_right (ih hx hy)
  | cons_cons row _ ih =>
    cases hx with
    | cons ha hx =>
      cases hy with
      | cons hb hy => exact .cons (h row _ _ ha hb) (ih hx hy)

theorem sublistForall₂_append {α : Type} {S : α → α → Prop} {xs ys xs' ys' : List α} (h : List.SublistForall₂ S xs ys)
    (h' : List.SublistForall₂ S xs' ys') : List.SublistForall₂ S (xs ++ xs') (ys ++ ys') := by
  obtain ⟨kept, hkept, hsub⟩ := List.sublistForall₂_iff.1 h
  obtain ⟨kept', hkept', hsub'⟩ := List.sublistForall₂_iff.1 h'
  exact List.sublistForall₂_iff.2 ⟨kept ++ kept', List.rel_append hkept hkept', hsub.append hsub'⟩

namespace LoadedModule

variable {m : LoadedModule} {memory memory' : Memory} {narrow wide level : ImportLevel}

/-! ## Views at two levels -/

/-- the view of the same module at a level -/
def seenAt (m : LoadedModule) (level : ImportLevel) : LoadedModule := { m with importLevel := level }

/-- what is loaded at two levels are views of one module -/
theorem load_seenAt (reader : Reader) (level other : ImportLevel) :
    load reader level = (load reader other).map (·.seenAt level) := by
  unfold load
  cases reader.header <;> rfl

theorem typeSymbol_seenAt (m : LoadedModule) (level : ImportLevel) (levels : Nat) (row : UInt32) :
    (m.seenAt level).typeSymbol levels row = m.typeSymbol levels row := by
  induction levels generalizing row with
  | zero => rfl
  | succ levels ih =>
    unfold typeSymbol
    simp only [ih]
    rfl

/-- what a token resolves to does not depend on the level -/
theorem resolveMethod_seenAt (m : LoadedModule) (level : ImportLevel) (token : Token) :
    (m.seenAt level).resolveMethod token = m.resolveMethod token := by
  unfold resolveMethod typeOfRow
  simp only [typeSymbol_seenAt]
  rfl

theorem TypeAt.seenAt {row : UInt32} {t : TypeSymbol} (h : (m.seenAt level).TypeAt memory row t) :
    m.TypeAt memory row t := ⟨h.fields, h.outermost, h.nested⟩

/-- the invariant does not depend on the level -/
theorem Coherent.seenAt (h : (m.seenAt level).Coherent memory) : m.Coherent memory where
  types := fun token t ht => by
    obtain ⟨row, hrow, hat⟩ := h.types token t ht
    exact ⟨row, hrow, hat.seenAt⟩
  methods := fun token x hx => ⟨(h.methods token x hx).selected, (h.methods token x hx).fields⟩

/-! ## What a wider level shows -/

theorem showsMethod_mono (h : narrow ≤ wide) (name : String) (row : UInt32)
    (hrow : (m.seenAt narrow).showsMethod name row = true) : (m.seenAt wide).showsMethod name row = true := by
  simp only [showsMethod, seenAt, MethodFlags.isImported] at hrow ⊢
  cases hr : m.reader.methodRow row with
  | error e => rw [hr] at hrow; cases hrow
  | ok methodRow =>
    simp only [hr, Bool.and_eq_true] at hrow ⊢
    exact ⟨hrow.1, Reach.importedAt_mono h hrow.2⟩

theorem showsType_mono (h : narrow ≤ wide) (name : String) (row : UInt32)
    (hrow : (m.seenAt narrow).showsType name row = true) : (m.seenAt wide).showsType name row = true := by
  simp only [showsType, importsType, seenAt, TypeFlags.isImported] at hrow ⊢
  cases hr : m.reader.typeRow row with
  | error e => rw [hr] at hrow; cases hrow
  | ok typeRow =>
    simp only [hr, Bool.and_eq_true] at hrow ⊢
    exact ⟨Reach.importedAt_mono h hrow.1, hrow.2⟩

/-! ## Members -/

/-- what is remembered for one method at two levels has the same row and the same type around it -/
theorem same_methods (h : m.Coherent memory) (h' : m.Coherent memory') {token : Token} {x x' : MethodSymbol}
    (hx : memory.method? token = some x) (hx' : memory'.method? token = some x') :
    x.origin = m.originOf token ∧ x'.origin = m.originOf token ∧ x.containing.same x'.containing = true := by
  obtain ⟨owner, howner, hd⟩ := h.method_owner hx
  obtain ⟨owner', howner', hd'⟩ := h'.method_owner hx'
  rw [howner, Except.ok.injEq] at howner'
  subst howner'
  exact ⟨(h.method_origin hx).1, (h'.method_origin hx').1, same_of_remembered h h' hd hd'⟩

/-- what is shown for one method at two levels is the same -/
theorem ShownFor.same (h : m.Coherent memory) (h' : m.Coherent memory') {t u : TypeSymbol} (hrt : t.Rooted)
    (hru : u.Rooted) (ht : t.same u = true) {row : UInt32} {y z : MethodSymbol} (hy : ShownFor t memory row y)
    (hz : ShownFor u memory' row z) : y.same z = true := by
  obtain ⟨x, hx, hy⟩ := hy
  obtain ⟨x', hx', hz⟩ := hz
  obtain ⟨ho, ho', hsame⟩ := same_methods h h' hx hx'
  have hi := hrt.isInstance_of_same hru ht
  rcases viewed_cases hy with ⟨hit, hy⟩ | ⟨hit, rfl⟩ <;> rcases viewed_cases hz with ⟨hiu, hz⟩ | ⟨hiu, rfl⟩
  · have hyo : y.origin = m.originOf (.ofParts .methodDef row) := by
      rw [MethodSymbol.origin_asMemberOf hy, h.method_definition hx, ho]
    have hzo : z.origin = m.originOf (.ofParts .methodDef row) := by
      rw [MethodSymbol.origin_asMemberOf hz, h'.method_definition hx', ho']
    have hyc := (MethodSymbol.view_of_asMemberOf hy hit).2
    have hzc := (MethodSymbol.view_of_asMemberOf hz hiu).2
    exact MethodSymbol.same_of_origin (hyo.trans hzo.symm) (by rw [hyo]; rfl) (by rwa [hyc, hzc])
  · rw [hit, hiu] at hi
    cases hi
  · rw [hit, hiu] at hi
    cases hi
  · exact MethodSymbol.same_of_origin (by rw [ho, ho']) (by rw [ho]; rfl) hsame

/-- the members that are told at a level are told at a wider one, in the same order -/
theorem members_widen (hle : narrow ≤ wide) (h : (m.seenAt narrow).Coherent memory)
    (h' : (m.seenAt wide).Coherent memory') {t u : TypeSymbol} (hrt : t.Rooted) (hru : u.Rooted)
    (ht : t.same u = true) {name : String}
    {found found' : List Symbol} (hfound : (((m.seenAt narrow).members t name).runFrom memory).1 = .ok found)
    (hfound' : (((m.seenAt wide).members u name).runFrom memory').1 = .ok found') :
    List.SublistForall₂ (fun x y => x.same y = true) (methodsAmong found) (methodsAmong found') ∧
      (m.reader.NamedByToken → List.SublistForall₂ (fun x y => x.same y = true) found found') := by
  have hsound := members_found t name h
  have hsound' := members_found u name h'
  obtain ⟨row, run, methods, us, hown, hrun, rfl, hmethods, hus⟩ := hsound.answers found hfound
  obtain ⟨row', run', methods', us', hown', hrun', rfl, hmethods', hus'⟩ := hsound'.answers found' hfound'
  have horigin : t.origin = u.origin := TypeSymbol.origin_of_same ht
  rw [← horigin] at hown'
  obtain rfl : row = row' := Except.ok.inj (hown.symm.trans hown')
  obtain rfl : run = run' := Except.ok.inj (hrun.symm.trans hrun')
  rw [methodsAmong_append, methodsAmong_append]
  have hshown : List.SublistForall₂ (fun x y => x.same y = true) methods methods' :=
    sublistForall₂_of_rows (fun _ _ _ hy hz => hy.same hsound.keeps.seenAt hsound'.keeps.seenAt hrt hru ht hz)
      (List.monotone_filter_right _ (showsMethod_mono hle name)) hmethods hmethods'
  refine ⟨hshown, fun hn => sublistForall₂_append ?_ ?_⟩
  · rw [List.sublistForall₂_map_left_iff, List.sublistForall₂_map_right_iff]
    exact hshown
  · rw [List.sublistForall₂_map_left_iff, List.sublistForall₂_map_right_iff]
    have hnested := nested_remembered hsound.keeps hn name hus
    have hnested' := nested_remembered hsound'.keeps hn name hus'
    refine sublistForall₂_of_rows (fun row _ _ hu hu' => ?_)
      (List.monotone_filter_right _ (showsType_mono hle name)) hnested hnested'
    exact same_of_remembered hsound.keeps.seenAt hsound'.keeps.seenAt hu hu'

end LoadedModule

end FrameSymbols
