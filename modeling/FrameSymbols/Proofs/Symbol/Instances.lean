/-
What instances and members have from their definitions.

Arguments go into the definition that a type is linked to, and a method is viewed from the definition that it is linked to,
so what was made of either before does not show (`TypeSymbol.construct_construct`, `MethodSymbol.Derived.view`). What is made
in this way is linked to a definition, and that to nothing (`TypeSymbol.Rooted`, `MethodSymbol.Rooted`): there are no chains.
`instance_laws` says what can be made of a definition and its methods in any number of steps, and what cannot.
-/
import FrameSymbols.Proofs.Symbol

namespace FrameSymbols

namespace TypeSymbol

theorem definition_of_link {t d : TypeSymbol} (h : t.link = some d) : t.definition = d := by
  rw [definition, h]
  rfl

theorem isInstance_eq_false_iff {t : TypeSymbol} : t.isInstance = false ↔ t.link = none := by
  rw [isInstance, Option.isSome_eq_false_iff, Option.isNone_iff_eq_none]

theorem definition_of_unlinked {t : TypeSymbol} (h : t.link = none) : t.definition = t := by
  rw [definition, h]
  rfl

/-- no type is linked to itself -/
theorem definition_eq_self_iff {t : TypeSymbol} : t.definition = t ↔ t.isInstance = false := by
  rw [isInstance_eq_false_iff]
  refine ⟨fun h => ?_, definition_of_unlinked⟩
  cases hlink : t.link with
  | none => rfl
  | some d =>
    rw [definition_of_link hlink] at h
    subst h
    have hsize : sizeOf d.link < sizeOf d := by
      cases d
      simp only [TypeSymbol.mk.sizeOf_spec]
      omega
    rw [hlink] at hsize
    simp only [Option.some.sizeOf_spec] at hsize
    omega

/-! ## Instances -/

theorem construct_eq_ok_iff {t u : TypeSymbol} {args : List TypeSymbol} :
    t.construct args = .ok u ↔
      (t.definition.genericParams ≠ [] ∧ args.length = t.definition.genericParams.length) ∧
        u = { t.definition with args, link := some t.definition } := by
  unfold construct
  simp only
  split
  · next h =>
    simp only [reduceCtorEq, false_iff, not_and]
    rintro ⟨hsome, hlength⟩
    rcases h with h | h
    · exact absurd h hsome
    · exact absurd hlength.symm h
  · next h =>
    obtain ⟨hsome, hlength⟩ := not_or.1 h
    rw [Except.ok.injEq, eq_comm]
    exact ⟨fun hu => ⟨⟨hsome, (not_not.1 hlength).symm⟩, hu⟩, And.right⟩

/-- arguments are refused if and only if the definition takes none, or another number of them -/
theorem construct_fails_iff {t : TypeSymbol} {args : List TypeSymbol} :
    (∃ e, t.construct args = .error e) ↔
      t.definition.genericParams = [] ∨ args.length ≠ t.definition.genericParams.length := by
  rw [ne_comm]
  unfold construct
  simp only
  split <;> simp_all

/-- arguments go into the definition -/
theorem construct_of_definition {t u : TypeSymbol} (h : t.definition = u.definition) (args : List TypeSymbol) :
    t.construct args = u.construct args := by
  unfold construct
  rw [h]

/-- an instance is linked to the definition behind what it was made of -/
theorem link_of_construct {t u : TypeSymbol} {args : List TypeSymbol} (h : t.construct args = .ok u) :
    u.link = some t.definition := by
  obtain ⟨-, rfl⟩ := construct_eq_ok_iff.1 h
  rfl

theorem args_of_construct {t u : TypeSymbol} {args : List TypeSymbol} (h : t.construct args = .ok u) : u.args = args := by
  obtain ⟨-, rfl⟩ := construct_eq_ok_iff.1 h
  rfl

theorem definition_of_construct {t u : TypeSymbol} {args : List TypeSymbol} (h : t.construct args = .ok u) :
    u.definition = t.definition :=
  definition_of_link (link_of_construct h)

/-- the arguments of an instance are not kept in one that is made of it -/
theorem construct_construct {t u : TypeSymbol} {xs : List TypeSymbol} (h : t.construct xs = .ok u)
    (ys : List TypeSymbol) : u.construct ys = t.construct ys :=
  construct_of_definition (definition_of_construct h) ys

theorem isInstance_of_construct {t u : TypeSymbol} {args : List TypeSymbol} (h : t.construct args = .ok u) :
    u.isInstance = true := by
  rw [isInstance, link_of_construct h]
  rfl

theorem args_ne_nil_of_construct {t u : TypeSymbol} {args : List TypeSymbol} (h : t.construct args = .ok u) :
    args ≠ [] := by
  obtain ⟨⟨hsome, hlength⟩, -⟩ := construct_eq_ok_iff.1 h
  rintro rfl
  exact hsome (List.length_eq_zero_iff.1 hlength.symm)

theorem definition_construct (t : TypeSymbol) (args : List TypeSymbol) :
    ((t.construct args).toOption.getD t).definition = t.definition := by
  cases h : t.construct args with
  | error e => rfl
  | ok u => exact definition_of_construct h

/-- no arguments make no instance -/
theorem construct_nil (t : TypeSymbol) : (t.construct []).toOption.getD t = t := by
  cases h : t.construct [] with
  | error e => rfl
  | ok u => exact absurd rfl (args_ne_nil_of_construct h)

/-- what is made of a type by putting arguments in, time after time -/
inductive Made (t : TypeSymbol) : TypeSymbol → Prop where
  | refl : Made t t
  | constructed {u v : TypeSymbol} {args : List TypeSymbol} (before : Made t u) (made : u.construct args = .ok v) :
      Made t v

theorem Made.definition {t u : TypeSymbol} (h : t.Made u) : u.definition = t.definition := by
  induction h with
  | refl => rfl
  | constructed _ made ih => exact (definition_of_construct made).trans ih

/-! ## Types as they are made -/

/-- what `ofRow` and `construct` make: a definition, which has no arguments, or an instance of one -/
inductive Rooted : TypeSymbol → Prop where
  | definition {t : TypeSymbol} (unlinked : t.link = none) (plain : t.args = []) : Rooted t
  | instance {d t : TypeSymbol} {args : List TypeSymbol} (unlinked : d.link = none) (plain : d.args = [])
      (made : d.construct args = .ok t) : Rooted t

theorem rooted_ofRow (row : TypeRow) (origin : Origin) (containing : Option TypeSymbol) :
    (ofRow row origin containing).Rooted := .definition rfl rfl

theorem Rooted.construct {t u : TypeSymbol} (h : t.Rooted) {args : List TypeSymbol} (hu : t.construct args = .ok u) :
    u.Rooted := by
  cases h with
  | definition unlinked plain => exact .instance unlinked plain hu
  | «instance» unlinked plain made =>
    rw [construct_construct made] at hu
    exact .instance unlinked plain hu

/-- the definition behind a type is linked to nothing and has no arguments -/
theorem Rooted.plain_definition {t : TypeSymbol} (h : t.Rooted) : t.definition.link = none ∧ t.definition.args = [] := by
  cases h with
  | definition unlinked plain => rw [definition_of_unlinked unlinked]; exact ⟨unlinked, plain⟩
  | «instance» unlinked plain made =>
    rw [definition_of_construct made, definition_of_unlinked unlinked]
    exact ⟨unlinked, plain⟩

/-- a type is its definition with arguments put in -/
theorem Rooted.eq_with {t : TypeSymbol} (h : t.Rooted) :
    t = { t.definition with args := t.args, link := t.link } := by
  cases h with
  | definition unlinked _ =>
    rw [definition_of_unlinked unlinked]
    cases t
    rfl
  | «instance» unlinked _ made =>
    rw [definition_of_construct made, definition_of_unlinked unlinked]
    obtain ⟨-, rfl⟩ := construct_eq_ok_iff.1 made
    rw [definition_of_unlinked unlinked]

theorem Rooted.origin_definition {t : TypeSymbol} (h : t.Rooted) : t.definition.origin = t.origin := by
  conv_rhs => rw [h.eq_with]

theorem Rooted.containing_definition {t : TypeSymbol} (h : t.Rooted) : t.definition.containing = t.containing := by
  conv_rhs => rw [h.eq_with]

theorem Rooted.name_definition {t : TypeSymbol} (h : t.Rooted) : t.definition.name = t.name := by
  conv_rhs => rw [h.eq_with]
  rfl

/-- definitions are the types without arguments -/
theorem Rooted.isInstance_eq_false_iff {t : TypeSymbol} (h : t.Rooted) : t.isInstance = false ↔ t.args = [] := by
  cases h with
  | definition unlinked plain => exact iff_of_true (TypeSymbol.isInstance_eq_false_iff.2 unlinked) plain
  | «instance» _ _ made =>
    refine iff_of_false (by rw [isInstance_of_construct made]; decide) ?_
    rw [args_of_construct made]
    exact args_ne_nil_of_construct made

theorem Rooted.isInstance_eq {t u : TypeSymbol} (ht : t.Rooted) (hu : u.Rooted) (h : t.args = [] ↔ u.args = []) :
    t.isInstance = u.isInstance := by
  rw [← ht.isInstance_eq_false_iff, ← hu.isInstance_eq_false_iff] at h
  simpa using h

/-- types with one definition and the same arguments are equal -/
theorem Rooted.eq_of_definition {t u : TypeSymbol} (ht : t.Rooted) (hu : u.Rooted)
    (hdefinition : t.definition = u.definition) (hargs : t.args = u.args) : t = u := by
  have hi : t.isInstance = u.isInstance := ht.isInstance_eq hu (by rw [hargs])
  cases hlink : t.link with
  | none =>
    have hplain : t.isInstance = false := TypeSymbol.isInstance_eq_false_iff.2 hlink
    rw [← definition_eq_self_iff.2 hplain, hdefinition, definition_eq_self_iff.2 (hi.symm.trans hplain)]
  | some d =>
    obtain ⟨e, hlink'⟩ := Option.isSome_iff_exists.1 (hi.symm.trans (by rw [isInstance, hlink]; rfl) : u.isInstance = true)
    rw [definition_of_link hlink, definition_of_link hlink'] at hdefinition
    rw [ht.eq_with, hu.eq_with, definition_of_link hlink, definition_of_link hlink', hlink, hlink', hdefinition, hargs]

/-- types that are the same are both instances or both definitions -/
theorem Rooted.isInstance_of_same {t u : TypeSymbol} (ht : t.Rooted) (hu : u.Rooted) (h : t.same u = true) :
    t.isInstance = u.isInstance := by
  obtain ⟨-, hargs, -⟩ := same_iff.1 h
  refine ht.isInstance_eq hu ?_
  rw [← List.length_eq_zero_iff, ← List.length_eq_zero_iff, hargs.length_eq]

end TypeSymbol

namespace MethodSymbol

/-! ## Members -/

theorem definition_of_link {x d : MethodSymbol} (h : x.link = some d) : x.definition = d := by
  rw [definition, h]
  rfl

theorem definition_of_unlinked {x : MethodSymbol} (h : x.link = none) : x.definition = x := by
  rw [definition, h]
  rfl

/-- no method is linked to itself -/
theorem definition_eq_self_iff {x : MethodSymbol} : x.definition = x ↔ x.link = none := by
  refine ⟨fun h => ?_, definition_of_unlinked⟩
  cases hlink : x.link with
  | none => rfl
  | some d =>
    rw [definition_of_link hlink] at h
    subst h
    have hsize : sizeOf d.link < sizeOf d := by
      cases d
      simp only [MethodSymbol.mk.sizeOf_spec]
      omega
    rw [hlink] at hsize
    simp only [Option.some.sizeOf_spec] at hsize
    omega

theorem asMemberOf_eq_ok_iff {x y : MethodSymbol} {t : TypeSymbol} :
    x.asMemberOf t = .ok y ↔ t.definition.same x.definition.containing.definition = true ∧
      y = if t.isInstance then { x.definition with containing := t, link := some x.definition } else x.definition := by
  unfold asMemberOf
  simp only
  split
  · next h =>
    rw [iff_true_intro h, true_and]
    split <;> rw [Except.ok.injEq, eq_comm]
  · next h => simp [h]

/-- views are taken from the definition -/
theorem asMemberOf_of_definition {x y : MethodSymbol} (h : y.definition = x.definition) (t : TypeSymbol) :
    y.asMemberOf t = x.asMemberOf t := by
  unfold asMemberOf
  rw [h]

/-- as a member of an instance, a method keeps its definition and has the instance as its type -/
theorem view_of_asMemberOf {x y : MethodSymbol} {t : TypeSymbol} (h : x.asMemberOf t = .ok y)
    (ht : t.isInstance = true) : y.definition = x.definition ∧ y.containing = t := by
  obtain ⟨-, rfl⟩ := asMemberOf_eq_ok_iff.1 h
  rw [if_pos ht]
  exact ⟨rfl, rfl⟩

/-- as a member of a definition, a method is its own definition -/
theorem eq_of_asMemberOf {x y : MethodSymbol} {t : TypeSymbol} (h : x.asMemberOf t = .ok y) (ht : t.isInstance = false) :
    y = x.definition := by
  obtain ⟨-, rfl⟩ := asMemberOf_eq_ok_iff.1 h
  rw [if_neg (by rw [ht]; decide)]

/-- a method that is viewed as a member of an instance is linked to its definition -/
theorem link_of_asMemberOf {x y : MethodSymbol} {t : TypeSymbol} (h : x.asMemberOf t = .ok y) (ht : t.isInstance = true) :
    y.link = some x.definition := by
  obtain ⟨-, rfl⟩ := asMemberOf_eq_ok_iff.1 h
  rw [if_pos ht]

theorem origin_asMemberOf {x y : MethodSymbol} {t : TypeSymbol} (h : x.asMemberOf t = .ok y) :
    y.origin = x.definition.origin := by
  obtain ⟨-, rfl⟩ := asMemberOf_eq_ok_iff.1 h
  split <;> rfl

/-- what `ofRow` and `asMemberOf` make: a definition, or what a definition is viewed as in an instance -/
inductive Rooted : MethodSymbol → Prop where
  | definition {x : MethodSymbol} (unlinked : x.link = none) : Rooted x
  | viewed {d x : MethodSymbol} {t : TypeSymbol} (unlinked : d.link = none) (inside : t.isInstance = true)
      (made : d.asMemberOf t = .ok x) : Rooted x

theorem rooted_ofRow (row : MethodRow) (origin : Origin) (containing : TypeSymbol) :
    (ofRow row origin containing).Rooted := .definition rfl

/-- the definition behind a method is linked to nothing -/
theorem Rooted.link_definition {x : MethodSymbol} (h : x.Rooted) : x.definition.link = none := by
  cases h with
  | definition unlinked => rw [definition_of_unlinked unlinked]; exact unlinked
  | viewed unlinked inside made =>
    rw [(view_of_asMemberOf made inside).1, definition_of_unlinked unlinked]
    exact unlinked

theorem Rooted.definition_definition {x : MethodSymbol} (h : x.Rooted) : x.definition.definition = x.definition :=
  definition_of_unlinked h.link_definition

theorem Rooted.origin_definition {x : MethodSymbol} (h : x.Rooted) : x.definition.origin = x.origin := by
  cases h with
  | definition unlinked => rw [definition_of_unlinked unlinked]
  | viewed unlinked inside made => rw [(view_of_asMemberOf made inside).1, origin_asMemberOf made]

/-- the definition does not change when a method is viewed in another type -/
theorem Rooted.definition_of_asMemberOf {x y : MethodSymbol} {t : TypeSymbol} (hx : x.Rooted)
    (h : x.asMemberOf t = .ok y) : y.definition = x.definition := by
  cases ht : t.isInstance with
  | true => exact (view_of_asMemberOf h ht).1
  | false => rw [eq_of_asMemberOf h ht, hx.definition_definition]

theorem Rooted.asMemberOf {x y : MethodSymbol} {t : TypeSymbol} (hx : x.Rooted) (h : x.asMemberOf t = .ok y) :
    y.Rooted := by
  cases ht : t.isInstance with
  | true =>
    refine .viewed hx.link_definition ht ?_
    rw [asMemberOf_of_definition hx.definition_definition, h]
  | false =>
    rw [eq_of_asMemberOf h ht]
    exact .definition hx.link_definition

/-- a method is its definition inside its own type -/
theorem Rooted.eq_with {x : MethodSymbol} (h : x.Rooted) :
    x = { x.definition with containing := x.containing, link := x.link } := by
  cases h with
  | definition unlinked =>
    rw [definition_of_unlinked unlinked]
    cases x
    rfl
  | viewed unlinked inside made =>
    rw [(view_of_asMemberOf made inside).1, definition_of_unlinked unlinked]
    obtain ⟨-, rfl⟩ := asMemberOf_eq_ok_iff.1 made
    rw [if_pos inside, definition_of_unlinked unlinked]

/-- methods are viewed in instances only -/
theorem Rooted.link_eq {x : MethodSymbol} (h : x.Rooted)
    (hd : x.definition.containing.isInstance = false) :
    x.link = if x.containing.isInstance then some x.definition else none := by
  cases h with
  | definition unlinked =>
    rw [definition_of_unlinked unlinked] at hd
    rw [unlinked, hd]
    rfl
  | viewed unlinked inside made =>
    obtain ⟨hdefinition, hcontaining⟩ := view_of_asMemberOf made inside
    rw [hcontaining, if_pos inside, link_of_asMemberOf made inside, hdefinition]

/-- methods with one definition, which is in no instance, and the same type are equal -/
theorem Rooted.eq_of_definition {x y : MethodSymbol} (hx : x.Rooted) (hy : y.Rooted)
    (hdefinition : x.definition = y.definition) (hcontaining : x.containing = y.containing)
    (hplain : x.definition.containing.isInstance = false) : x = y := by
  rw [hx.eq_with, hy.eq_with, hx.link_eq hplain, hy.link_eq (hdefinition ▸ hplain), hdefinition, hcontaining]

/-- what is made of a method by viewing it as a member of one type after the other -/
inductive Derived (x : MethodSymbol) : MethodSymbol → Prop where
  | refl : Derived x x
  | viewed {y z : MethodSymbol} {t : TypeSymbol} (before : Derived x y) (made : y.asMemberOf t = .ok z) : Derived x z

theorem Derived.rooted {x y : MethodSymbol} (hx : x.Rooted) (h : x.Derived y) : y.Rooted := by
  induction h with
  | refl => exact hx
  | viewed _ made ih => exact ih.asMemberOf made

theorem Derived.definition {x y : MethodSymbol} (hx : x.Rooted) (h : x.Derived y) : y.definition = x.definition := by
  induction h with
  | refl => rfl
  | viewed before made ih => exact ((before.rooted hx).definition_of_asMemberOf made).trans ih

/-- the views that were taken before do not show -/
theorem Derived.view {x y : MethodSymbol} (hx : x.Rooted) (h : x.Derived y) (t : TypeSymbol) :
    y.asMemberOf t = x.asMemberOf t :=
  asMemberOf_of_definition (h.definition hx) t

/-- a definition can be viewed as a member of every type whose definition is the same as that of its own -/
theorem view_of_definition {x : MethodSymbol} (hx : x.definition = x) {t : TypeSymbol}
    (ht : t.definition.same x.containing.definition = true) :
    ∃ y, x.asMemberOf t = .ok y ∧ y.definition = x ∧ (t.isInstance = true → y.containing = t) ∧
      (t.isInstance = false → y = x) := by
  have hview := asMemberOf_eq_ok_iff.2 ⟨by rw [hx]; exact ht, rfl⟩
  refine ⟨_, hview, ?_, fun hi => (view_of_asMemberOf hview hi).2, fun hi => (eq_of_asMemberOf hview hi).trans hx⟩
  exact ((Rooted.definition (definition_eq_self_iff.1 hx)).definition_of_asMemberOf hview).trans hx

theorem asMemberOf_fails {x : MethodSymbol} (hx : x.definition = x) {t : TypeSymbol}
    (ht : t.definition.same x.containing.definition = false) : ∃ e, x.asMemberOf t = .error e := by
  unfold asMemberOf
  rw [hx]
  exact ⟨_, if_neg (by rw [ht]; decide)⟩

/-- **Instances and members obey the laws of definitions.** Take a definition with parameters and a method that is a
definition in it. Arguments of the right number make an instance of it, and what is made of the definition in any number of
steps takes other arguments as the definition does; the definition behind it is the one it was made of, which is no instance.
Arguments are refused only by a definition without parameters or for their number. Whatever views of the method were taken
before, it is viewed as a member of the definition and of all its instances as if there had been none: it has the same
definition, and its type is the one that was asked for. So in the definition itself it is the method again. As a member of
anything else, no view of it is had. -/
theorem instance_laws {d : TypeSymbol} (hd : d.isInstance = false) (hparams : d.genericParams ≠ []) {x : MethodSymbol}
    (hx : x.definition = x) (hc : x.containing = d) :
    (∀ xs ys : List TypeSymbol, xs.length = d.genericParams.length → ys.length = d.genericParams.length →
      ∃ t u, d.construct xs = .ok t ∧ d.construct ys = .ok u ∧ t.construct ys = .ok u ∧ t.isInstance = true ∧
        t.args = xs) ∧
    (∀ t, d.Made t → t.definition = d ∧ t.definition.isInstance = false ∧ ∀ ys, t.construct ys = d.construct ys) ∧
    (∀ (t : TypeSymbol) (args : List TypeSymbol), (∃ e, t.construct args = .error e) ↔
      t.definition.genericParams = [] ∨ args.length ≠ t.definition.genericParams.length) ∧
    ∀ y, x.Derived y → y.definition = x ∧ y.asMemberOf d = .ok x ∧
      (∀ u, u.definition.same d = true → ∃ z, y.asMemberOf u = .ok z ∧ x.asMemberOf u = .ok z ∧ z.definition = x ∧
        z.containing.same u = true ∧ (u.definition = d → z.containing = u)) ∧
      ∀ v, v.definition.same d = false → ∃ e, y.asMemberOf v = .error e := by
  have hdd : d.definition = d := TypeSymbol.definition_eq_self_iff.2 hd
  refine ⟨fun xs ys hxs hys => ?instances, fun t ht => ?made, fun t args => TypeSymbol.construct_fails_iff,
    fun y hy => ?members⟩
  case instances =>
    have hfits : ∀ args : List TypeSymbol, args.length = d.genericParams.length → d.construct args = .ok _ :=
      fun args hargs => TypeSymbol.construct_eq_ok_iff.2 ⟨⟨by rwa [hdd], by rwa [hdd]⟩, rfl⟩
    have ht := hfits xs hxs
    have hu := hfits ys hys
    refine ⟨_, _, ht, hu, ?_, TypeSymbol.isInstance_of_construct ht, TypeSymbol.args_of_construct ht⟩
    rw [TypeSymbol.construct_construct ht, hu]
  case made =>
    have hdefinition : t.definition = d := ht.definition.trans hdd
    refine ⟨hdefinition, by rw [hdefinition, hd], TypeSymbol.construct_of_definition ?_⟩
    rw [hdefinition, hdd]
  case members =>
    -- every view is one of the method itself
    have hrooted : x.Rooted := .definition (definition_eq_self_iff.1 hx)
    simp only [hy.view hrooted]
    refine ⟨(hy.definition hrooted).trans hx, ?_, fun u hu => ?_, fun v hv => ?_⟩
    · obtain ⟨z, hz, -, -, hself⟩ := view_of_definition hx (t := d) (by rw [hc]; exact TypeSymbol.same_refl _)
      rw [hz, hself hd]
    · obtain ⟨z, hz, hdefinition, hinstance, hself⟩ := view_of_definition hx (t := u) (by rw [hc, hdd]; exact hu)
      refine ⟨z, hz, hz, hdefinition, ?_⟩
      cases hi : u.isInstance with
      | true =>
        rw [hinstance hi]
        exact ⟨TypeSymbol.same_refl u, fun _ => rfl⟩
      | false =>
        rw [hself hi, hc]
        rw [TypeSymbol.definition_eq_self_iff.2 hi] at hu ⊢
        exact ⟨TypeSymbol.same_symm hu, Eq.symm⟩
    · exact asMemberOf_fails hx (by rw [hc, hdd]; exact hv)

def cell : TypeSymbol := .ofRow ⟨1, "Cell`1", "", 1, ["T"]⟩ .source none

def cellGet : MethodSymbol := .ofRow ⟨6, "Get", []⟩ .source cell

/-- a cell of cells is a cell of something else when that is asked for, and its method is the same one there -/
theorem instance_laws_cell :
    ∃ t u z, cell.construct [cell] = .ok t ∧ t.construct [t] = .ok u ∧ u.text = "Cell`1[Cell`1[Cell`1]]" ∧
      u.definition = cell ∧ cellGet.asMemberOf u = .ok z ∧ z.text = "Cell`1[Cell`1[Cell`1]]::Get" ∧
      z.asMemberOf cell = .ok cellGet := by
  have hlaws := instance_laws (d := cell) (by decide) (by decide) (x := cellGet) rfl rfl
  obtain ⟨hinstances, hmade, -, hmembers⟩ := hlaws
  have ht : cell.construct [cell] = .ok { cell with args := [cell], link := some cell } := rfl
  obtain ⟨-, u, -, hu, -, -, -⟩ := hinstances [cell] [{ cell with args := [cell], link := some cell }] rfl rfl
  obtain ⟨-, -, hagain⟩ := hmade _ (.constructed .refl ht)
  obtain ⟨hud, -, -⟩ := hmade u (.constructed .refl hu)
  obtain ⟨-, -, hviews, -⟩ := hmembers cellGet .refl
  obtain ⟨z, hz, -, -, -, hcontaining⟩ := hviews u (by rw [hud]; exact TypeSymbol.same_refl _)
  obtain ⟨-, hback, -⟩ := hmembers z (.viewed .refl hz)
  have hcell : cell.definition = cell := rfl
  obtain rfl : u = { cell with args := [{ cell with args := [cell], link := some cell }], link := some cell } := by
    rw [(TypeSymbol.construct_eq_ok_iff.1 hu).2, hcell]
  refine ⟨_, _, z, ht, (hagain _).trans hu, by decide +kernel, hud, hz, ?_, hback⟩
  obtain ⟨-, rfl⟩ := asMemberOf_eq_ok_iff.1 hz
  decide +kernel

end MethodSymbol

end FrameSymbols
