/-
When two symbols are the same.

Types are the same when they have one origin and the same arguments, and, if that is no row, the same names and the same
types around them as well (`TypeSymbol.same_iff`). This goes down a tree, so what it satisfies is shown for a type from its
parts (`parts_induction`). It is an equivalence, and then so is the relation on methods (`MethodSymbol.same_iff`), whatever
the origins are.
-/
import FrameSymbols.Symbol
import Mathlib.Data.List.Forall2

namespace FrameSymbols

namespace TypeSymbol

/-- what holds of a type if it holds of the type around it and of its arguments holds of every type -/
theorem parts_induction {motive : TypeSymbol → Prop}
    (step : ∀ t, (∀ outer, t.containing = some outer → motive outer) → (∀ a ∈ t.args, motive a) → motive t) :
    ∀ t, motive t
  | ⟨name, space, flags, origin, params, containing, args, link⟩ => by
    refine step _ (fun outer ho => ?_) (fun a ha => ?_)
    · exact parts_induction step outer
    · exact parts_induction step a
termination_by t => sizeOf t
decreasing_by
  all_goals simp only at *
  · subst ho; simp; omega
  · have := List.sizeOf_lt_of_mem ha
    simp; omega

theorem sameArgs_iff {as bs : List TypeSymbol} :
    sameArgs as bs = true ↔ List.Forall₂ (fun a b => a.same b = true) as bs := by
  induction as generalizing bs with
  | nil => cases bs <;> simp [sameArgs]
  | cons a as ih => cases bs <;> simp [sameArgs, ih]

theorem sameContaining_iff {outer outer' : Option TypeSymbol} :
    sameContaining outer outer' = true ↔ Option.Rel (fun a b => a.same b = true) outer outer' := by
  cases outer <;> cases outer' <;> simp [sameContaining]

/-- what makes two types the same -/
theorem same_iff {t u : TypeSymbol} :
    t.same u = true ↔ t.origin = u.origin ∧ List.Forall₂ (fun a b => a.same b = true) t.args u.args ∧
      (t.origin.hasRow = false → t.metadataName = u.metadataName ∧ t.space = u.space ∧
        Option.Rel (fun a b => a.same b = true) t.containing u.containing) := by
  obtain ⟨name, space, flags, origin, params, containing, args, link⟩ := t
  obtain ⟨name', space', flags', origin', params', containing', args', link'⟩ := u
  rw [same, Bool.and_eq_true, sameArgs_iff]
  simp only
  split
  · next hrow =>
    rw [beq_iff_eq, and_comm]
    refine and_congr_right fun ho => ?_
    subst ho
    simp only [Bool.or_self] at hrow
    simp [hrow]
  · next hrow =>
    have hrow' : origin.hasRow = false := (Bool.or_eq_false_iff.1 (Bool.not_eq_true _ ▸ hrow)).1
    simp only [Bool.and_eq_true, beq_iff_eq, sameContaining_iff, hrow', forall_const]
    tauto

/-- every type is the same as itself -/
theorem same_refl (t : TypeSymbol) : t.same t = true := by
  induction t using parts_induction with
  | step t houter hargs =>
    refine same_iff.2 ⟨rfl, List.forall₂_same.2 hargs, fun _ => ⟨rfl, rfl, ?_⟩⟩
    cases hc : t.containing with
    | none => exact .none
    | some outer => exact .some (houter outer hc)

theorem same_symm {t u : TypeSymbol} (h : t.same u = true) : u.same t = true := by
  induction t using parts_induction generalizing u with
  | step t houter hargs =>
    obtain ⟨ho, ha, hnames⟩ := same_iff.1 h
    refine same_iff.2 ⟨ho.symm, ?_, fun hrow => ?_⟩
    · refine List.Forall₂.flip (((List.forall₂_and_left _ _).2 ⟨hargs, ha⟩).imp ?_)
      rintro a b ⟨hsymm, hab⟩
      exact hsymm hab
    · obtain ⟨hname, hspace, hc⟩ := hnames (by rw [ho]; exact hrow)
      refine ⟨hname.symm, hspace.symm, ?_⟩
      generalize hu : u.containing = inner at hc
      generalize ht : t.containing = outer at hc
      cases hc with
      | none => exact .none
      | some hab => exact .some (houter _ ht hab)

/-- where the types of the first list can be followed on, two lists in step with the same one are in step -/
theorem forall₂_trans {as bs cs : List TypeSymbol}
    (htrans : ∀ a ∈ as, ∀ b c, a.same b = true → b.same c = true → a.same c = true)
    (h : List.Forall₂ (fun a b => a.same b = true) as bs) (h' : List.Forall₂ (fun a b => a.same b = true) bs cs) :
    List.Forall₂ (fun a b => a.same b = true) as cs := by
  induction h generalizing cs with
  | nil => exact h'
  | cons hab _ ih =>
    cases h' with
    | cons hbc h' =>
      exact .cons (htrans _ List.mem_cons_self _ _ hab hbc) (ih (fun a ha => htrans a (List.mem_cons_of_mem _ ha)) h')

theorem same_trans {t u v : TypeSymbol} (h : t.same u = true) (h' : u.same v = true) : t.same v = true := by
  induction t using parts_induction generalizing u v with
  | step t houter hargs =>
    obtain ⟨ho, ha, hnames⟩ := same_iff.1 h
    obtain ⟨ho', ha', hnames'⟩ := same_iff.1 h'
    refine same_iff.2 ⟨ho.trans ho', forall₂_trans (fun a hmem b c => hargs a hmem) ha ha', fun hrow => ?_⟩
    obtain ⟨hname, hspace, hc⟩ := hnames hrow
    obtain ⟨hname', hspace', hc'⟩ := hnames' (by rw [← ho]; exact hrow)
    refine ⟨hname.trans hname', hspace.trans hspace', ?_⟩
    generalize ht : t.containing = outer at hc
    generalize u.containing = middle at hc hc'
    generalize v.containing = inner at hc'
    cases hc with
    | none => cases hc'; exact .none
    | some hab =>
      cases hc' with
      | some hbc => exact .some (houter _ ht hab hbc)

theorem same_equivalence : Equivalence fun t u : TypeSymbol => t.same u = true := ⟨same_refl, same_symm, same_trans⟩

/-- lists that are the same one by one are equal, where types of the first that are the same as one of the second are -/
theorem eq_of_same_args {as bs : List TypeSymbol} (h : ∀ a ∈ as, ∀ b ∈ bs, a.same b = true → a = b)
    (hs : List.Forall₂ (fun a b => a.same b = true) as bs) : as = bs := by
  induction hs with
  | nil => rfl
  | cons hab _ ih =>
    rw [h _ List.mem_cons_self _ List.mem_cons_self hab,
      ih fun a ha b hb => h a (List.mem_cons_of_mem _ ha) b (List.mem_cons_of_mem _ hb)]

theorem origin_of_same {t u : TypeSymbol} (h : t.same u = true) : t.origin = u.origin := (same_iff.1 h).1

/-- definitions of one row are the same -/
theorem same_of_origin {t u : TypeSymbol} (ht : t.args = []) (hu : u.args = []) (ho : t.origin = u.origin)
    (hr : t.origin.hasRow = true) : t.same u = true := by
  refine same_iff.2 ⟨ho, ?_, fun hrow => ?_⟩
  · rw [ht, hu]
    exact .nil
  · rw [hr] at hrow
    cases hrow

end TypeSymbol

namespace MethodSymbol

/-- what makes two methods the same -/
theorem same_iff {x y : MethodSymbol} :
    x.same y = true ↔ x.origin = y.origin ∧ x.containing.same y.containing = true ∧
      (x.origin.hasRow = false → x.name = y.name) := by
  unfold same
  split
  · next hrow =>
    rw [Bool.and_eq_true, beq_iff_eq]
    refine and_congr_right fun ho => ?_
    rw [ho, Bool.or_self] at hrow
    simp [ho, hrow]
  · next hrow =>
    have hrow' : x.origin.hasRow = false := (Bool.or_eq_false_iff.1 (Bool.not_eq_true _ ▸ hrow)).1
    simp only [Bool.and_eq_true, beq_iff_eq, hrow', forall_const]
    tauto

theorem same_equivalence : Equivalence fun x y : MethodSymbol => x.same y = true where
  refl x := same_iff.2 ⟨rfl, x.containing.same_refl, fun _ => rfl⟩
  symm h := by
    obtain ⟨ho, hc, hname⟩ := same_iff.1 h
    exact same_iff.2 ⟨ho.symm, TypeSymbol.same_symm hc, fun hrow => (hname (by rw [ho]; exact hrow)).symm⟩
  trans h h' := by
    obtain ⟨ho, hc, hname⟩ := same_iff.1 h
    obtain ⟨ho', hc', hname'⟩ := same_iff.1 h'
    refine same_iff.2 ⟨ho.trans ho', TypeSymbol.same_trans hc hc', fun hrow => ?_⟩
    exact (hname hrow).trans (hname' (by rw [← ho]; exact hrow))

/-- what a row is seen as in one type is the same -/
theorem same_of_origin {x y : MethodSymbol} (ho : x.origin = y.origin) (hr : x.origin.hasRow = true)
    (hc : x.containing.same y.containing = true) : x.same y = true := by
  refine same_iff.2 ⟨ho, hc, fun hrow => ?_⟩
  rw [hr] at hrow
  cases hrow

theorem same_ofRow (row : MethodRow) {id : ModuleId} {token : Token} {t u : TypeSymbol} (h : t.same u = true) :
    (ofRow row (.metadata id token) t).same (ofRow row (.metadata id token) u) = true :=
  same_of_origin rfl rfl h

end MethodSymbol

end FrameSymbols
