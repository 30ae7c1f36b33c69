/-
Equal symbols of one module are one symbol.

Whatever a view has told, and whatever is made of that, is known to its memory: the definition behind it is remembered, and
its arguments are known (`Told.known`). A definition is remembered once for its row, so two known types from one row with the
same arguments have everything else in common too (`Knows.eq_of_same`), and so do two known methods
(`KnowsMethod.eq_of_same`). `equality_is_identity` adds that sameness is an equivalence on all symbols.
-/
import FrameSymbols.Proofs.Context.Conversation
import FrameSymbols.Proofs.Module.Members

namespace FrameSymbols.LoadedModule

variable {m : LoadedModule} {memory : Memory}

/-! ## Known symbols -/

/-- a remembered method, or what that method is viewed as in a known instance -/
structure KnowsMethod (memory : Memory) (x : MethodSymbol) : Prop where
  rooted : x.Rooted
  definition : ∃ token, memory.method? token = some x.definition
  viewed : ∀ d, x.link = some d → Knows memory x.containing

theorem Coherent.knowsMethod (h : m.Coherent memory) {token : Token} {x : MethodSymbol}
    (hx : memory.method? token = some x) : KnowsMethod memory x := by
  have hlink := h.method_link hx
  exact ⟨.definition hlink, ⟨token, by rw [h.method_definition hx, hx]⟩, fun d hd => by rw [hlink] at hd; cases hd⟩

theorem KnowsMethod.mono {after : Memory} {x : MethodSymbol} (h : KnowsMethod memory x) (hg : memory.Extends after) :
    KnowsMethod after x := by
  obtain ⟨token, hx⟩ := h.definition
  exact ⟨h.rooted, ⟨token, hg.methods _ _ hx⟩, fun d hd => (h.viewed d hd).mono hg⟩

theorem KnowsMethod.ofDefinition (h : m.Coherent memory) {x : MethodSymbol} (hx : KnowsMethod memory x) :
    KnowsMethod memory x.definition := by
  obtain ⟨token, hk⟩ := hx.definition
  exact h.knowsMethod hk

theorem KnowsMethod.containing (h : m.Coherent memory) {x : MethodSymbol} (hx : KnowsMethod memory x) :
    Knows memory x.containing := by
  cases hlink : x.link with
  | some d => exact hx.viewed d hlink
  | none =>
    obtain ⟨token, hk⟩ := hx.definition
    rw [MethodSymbol.definition_of_unlinked hlink] at hk
    obtain ⟨-, owner, ho⟩ := h.method_origin hk
    exact h.knows ho

theorem KnowsMethod.asMemberOf (h : m.Coherent memory) {x y : MethodSymbol} {t : TypeSymbol} (hx : KnowsMethod memory x)
    (ht : Knows memory t) (hy : x.asMemberOf t = .ok y) : KnowsMethod memory y := by
  cases hi : t.isInstance with
  | true =>
    obtain ⟨hdefinition, hcontaining⟩ := MethodSymbol.view_of_asMemberOf hy hi
    refine ⟨hx.rooted.asMemberOf hy, by rw [hdefinition]; exact hx.definition, fun _ _ => ?_⟩
    rw [hcontaining]
    exact ht
  | false =>
    rw [MethodSymbol.eq_of_asMemberOf hy hi]
    exact hx.ofDefinition h

theorem ShownFor.known (h : m.Coherent memory) {t : TypeSymbol} (ht : Knows memory t) {row : UInt32} {y : MethodSymbol}
    (hy : ShownFor t memory row y) : KnowsMethod memory y := by
  obtain ⟨x, hx, hview⟩ := hy
  have hknown := h.knowsMethod hx
  rcases viewed_cases hview with ⟨-, hview⟩ | ⟨-, rfl⟩
  · exact hknown.asMemberOf h ht hview
  · exact hknown

def KnowsSymbol (memory : Memory) : Symbol → Prop
  | .type t => Knows memory t
  | .method x => KnowsMethod memory x

/-- what is told in answer to a question about known symbols is known from then on -/
theorem Tells.known {after : Memory} (h : m.Coherent memory) (h' : m.Coherent after) (hg : memory.Extends after)
    {ask : Ask} (hask : ∀ s ∈ ask.symbols, KnowsSymbol after s) {s : Symbol} (hs : Tells memory ask s) :
    KnowsSymbol after s := by
  cases hs with
  | type known => exact known.mono hg
  | method remembered => exact (h.knowsMethod remembered).mono hg
  | given among => exact hask _ among
  | member searched shown =>
    refine (shown.mono hg).known h' ?_
    rcases Ask.searched_cases searched with ht | ⟨x, hx, ho⟩
    · exact hask _ ht
    · exact (KnowsMethod.containing h' (hask _ hx)).enclosing h' ho

/-! ## Symbols that were told -/

/-- a symbol that was told in a history, in answer to a question about such symbols, or was made from such symbols -/
inductive Told (m : LoadedModule) (asks : List Ask) : Symbol → Prop where
  | reply {before later : List Ask} {ask : Ask} {reply : Reply} {s : Symbol} (history : asks = before ++ ask :: later)
      (asked : ∀ u ∈ ask.symbols, Told m asks u) (answer : ((m.reply ask).runFrom (m.after before)).1 = .ok reply)
      (among : s ∈ reply.symbols) : Told m asks s
  | argument {t a : TypeSymbol} (of : Told m asks (.type t)) (inside : a ∈ t.args) : Told m asks (.type a)
  | enclosing {t outer : TypeSymbol} (of : Told m asks (.type t)) (around : t.containing = some outer) :
      Told m asks (.type outer)
  | containing {x : MethodSymbol} (of : Told m asks (.method x)) : Told m asks (.type x.containing)
  | typeDefinition {t : TypeSymbol} (of : Told m asks (.type t)) : Told m asks (.type t.definition)
  | methodDefinition {x : MethodSymbol} (of : Told m asks (.method x)) : Told m asks (.method x.definition)
  | constructed {t u : TypeSymbol} {args : List TypeSymbol} (of : Told m asks (.type t))
      (inside : ∀ a ∈ args, Told m asks (.type a)) (made : t.construct args = .ok u) : Told m asks (.type u)
  | viewed {x y : MethodSymbol} {t : TypeSymbol} (of : Told m asks (.method x)) (inside : Told m asks (.type t))
      (made : x.asMemberOf t = .ok y) : Told m asks (.method y)

/-- what was told is known afterwards -/
theorem Told.known {asks : List Ask} {s : Symbol} (h : m.Told asks s) : KnowsSymbol (m.after asks) s := by
  have hcoherent := m.after_coherent asks
  induction h with
  | @reply before later ask reply s history _ answer among ih =>
    have hsound := reply_tells (m.after_coherent before) ask
    have hafter : m.after asks = m.run ((m.reply ask).runFrom (m.after before)).2 later := by
      rw [history, after_append, reply_step]
      rfl
    obtain ⟨hlater, hgrows⟩ := run_coherent later hsound.keeps
    rw [← hafter] at hlater hgrows
    exact (hsound.answers reply answer s among).known hsound.keeps hlater hgrows ih
  | argument _ inside ih => exact Knows.argument ih inside
  | enclosing _ around ih => exact Knows.enclosing hcoherent ih around
  | containing _ ih => exact KnowsMethod.containing hcoherent ih
  | typeDefinition _ ih => exact Knows.definition hcoherent ih
  | methodDefinition _ ih => exact KnowsMethod.ofDefinition hcoherent ih
  | constructed _ _ made ih ihargs => exact Knows.construct ih ihargs made
  | viewed _ _ made ih iht => exact KnowsMethod.asMemberOf hcoherent ih iht made

/-! ## Known symbols that are the same -/

theorem Knows.origin (h : m.Coherent memory) {t : TypeSymbol} (ht : Knows memory t) :
    ∃ token, t.origin = m.originOf token ∧ memory.type? token = some t.definition := by
  cases ht with
  | @found token _ rooted remembered _ => exact ⟨token, by rw [← rooted.origin_definition, h.type_origin remembered], remembered⟩

theorem KnowsMethod.origin (h : m.Coherent memory) {x : MethodSymbol} (hx : KnowsMethod memory x) :
    ∃ token, x.origin = m.originOf token ∧ memory.method? token = some x.definition := by
  obtain ⟨token, hk⟩ := hx.definition
  exact ⟨token, by rw [← hx.rooted.origin_definition, (h.method_origin hk).1], hk⟩

/-- known types are the same if they come from one token and have the same arguments -/
theorem Knows.same_iff (h : m.Coherent memory) {t u : TypeSymbol} (ht : Knows memory t) :
    t.same u = true ↔ (∃ token, t.origin = m.originOf token ∧ u.origin = m.originOf token) ∧
      List.Forall₂ (fun a b => a.same b = true) t.args u.args := by
  obtain ⟨token, ho, -⟩ := ht.origin h
  rw [TypeSymbol.same_iff]
  constructor
  · rintro ⟨horigin, hargs, -⟩
    exact ⟨⟨token, ho, by rw [← horigin, ho]⟩, hargs⟩
  · rintro ⟨⟨other, ho', hu⟩, hargs⟩
    refine ⟨by rw [ho', hu], hargs, fun hrow => ?_⟩
    rw [ho'] at hrow
    cases hrow

theorem KnowsMethod.same_iff (h : m.Coherent memory) {x y : MethodSymbol} (hx : KnowsMethod memory x) :
    x.same y = true ↔ (∃ token, x.origin = m.originOf token ∧ y.origin = m.originOf token) ∧
      x.containing.same y.containing = true := by
  obtain ⟨token, ho, -⟩ := hx.origin h
  rw [MethodSymbol.same_iff]
  constructor
  · rintro ⟨horigin, hc, -⟩
    exact ⟨⟨token, ho, by rw [← horigin, ho]⟩, hc⟩
  · rintro ⟨⟨other, ho', hy⟩, hc⟩
    refine ⟨by rw [ho', hy], hc, fun hrow => ?_⟩
    rw [ho'] at hrow
    cases hrow

/-- known types that are the same are equal -/
theorem Knows.eq_of_same (h : m.Coherent memory) {t u : TypeSymbol} (ht : Knows memory t) (hu : Knows memory u)
    (hs : t.same u = true) : t = u := by
  induction ht generalizing u with
  | @found token t rooted remembered args ih =>
    obtain ⟨other, ho, remembered'⟩ := hu.origin h
    obtain ⟨horigin, hargs, -⟩ := TypeSymbol.same_iff.1 hs
    -- one token has one definition
    have htoken : token = other :=
      originOf_inj (by rw [← ho, ← horigin, ← rooted.origin_definition, h.type_origin remembered])
    subst htoken
    have hdefinition : t.definition = u.definition := Option.some.inj (remembered.symm.trans remembered')
    refine rooted.eq_of_definition hu.rooted hdefinition (TypeSymbol.eq_of_same_args ?_ hargs)
    exact fun a ha b hb hab => ih a ha (hu.argument hb) hab

/-- known methods that are the same are equal -/
theorem KnowsMethod.eq_of_same (h : m.Coherent memory) {x y : MethodSymbol} (hx : KnowsMethod memory x)
    (hy : KnowsMethod memory y) (hs : x.same y = true) : x = y := by
  obtain ⟨token, ho, hk⟩ := hx.origin h
  obtain ⟨other, ho', hk'⟩ := hy.origin h
  obtain ⟨horigin, hsame, -⟩ := MethodSymbol.same_iff.1 hs
  have htoken : token = other := originOf_inj (by rw [← ho, ← ho', horigin])
  subst htoken
  have hdefinition : x.definition = y.definition := Option.some.inj (hk.symm.trans hk')
  refine hx.rooted.eq_of_definition hy.rooted hdefinition ((hx.containing h).eq_of_same h (hy.containing h) hsame) ?_
  obtain ⟨-, owner, hd⟩ := h.method_origin hk
  exact h.type_isInstance hd

/-- **Equality is identity.** Sameness is an equivalence on types and on methods, whatever they come from. Of what one view
has told in a history, and of what is made of that, two types are the same if and only if they come from one token and have
the same arguments, and two methods if and only if they come from one token and belong to the same type. Symbols that are the
same are equal then: their names, their flags, the types around them and the texts that show them are. -/
theorem equality_is_identity :
    (Equivalence fun t u : TypeSymbol => t.same u = true) ∧ (Equivalence fun x y : MethodSymbol => x.same y = true) ∧
    ∀ (m : LoadedModule) (asks : List Ask),
      (∀ t u, m.Told asks (.type t) → m.Told asks (.type u) →
        (t.same u = true ↔ (∃ token, t.origin = m.originOf token ∧ u.origin = m.originOf token) ∧
          List.Forall₂ (fun a b => a.same b = true) t.args u.args) ∧
        (t.same u = true → t = u)) ∧
      ∀ x y, m.Told asks (.method x) → m.Told asks (.method y) →
        (x.same y = true ↔ (∃ token, x.origin = m.originOf token ∧ y.origin = m.originOf token) ∧
          x.containing.same y.containing = true) ∧
        (x.same y = true → x = y) := by
  refine ⟨TypeSymbol.same_equivalence, MethodSymbol.same_equivalence, fun m asks => ?_⟩
  have h := m.after_coherent asks
  refine ⟨fun t u ht hu => ?types, fun x y hx hy => ?methods⟩
  case types =>
    have hknown : Knows (m.after asks) t := ht.known
    exact ⟨hknown.same_iff h, hknown.eq_of_same h hu.known⟩
  case methods =>
    have hknown : KnowsMethod (m.after asks) x := hx.known
    exact ⟨hknown.same_iff h, hknown.eq_of_same h hy.known⟩

/-- the generic type is asked for, then its public method, and then the members of an instance -/
def boxAsks : List Ask := [.type (.ofParts .typeDef 1), .method (.ofParts .methodDef 1), .members boxOfBox "Get"]

/-- the method that is made by viewing the definition in the instance is told among the members of that, and not only one
that is the same -/
theorem equality_is_identity_box :
    ∃ x y found, boxView.Told boxAsks (.method x) ∧ x.asMemberOf boxOfBox = .ok y ∧
      ((boxView.members boxOfBox "Get").runFrom (boxView.after (boxAsks.take 2))).1 = .ok found ∧ .method y ∈ found := by
  have hbox : boxView.Told boxAsks (.type box) :=
    @Told.reply _ _ [] _ (.type _) (.type box) _ rfl nofun rfl List.mem_cons_self
  have hinstance : boxView.Told boxAsks (.type boxOfBox) := .constructed hbox (List.forall_mem_singleton.2 hbox) rfl
  have hsame : (((boxView.resolveMethod (.ofParts .methodDef 1)).runFrom (boxView.after (boxAsks.take 1))).1.toOption.any
      fun x => (x.asMemberOf boxOfBox).toOption.any fun y =>
        ((boxView.members boxOfBox "Get").runFrom (boxView.after (boxAsks.take 2))).1.toOption.any fun found =>
          (methodsAmong found).any y.same) = true := by decide +kernel
  obtain ⟨x, hx, hsame⟩ := (Option.any_eq_true _ _).1 hsame
  obtain ⟨y, hy, hsame⟩ := (Option.any_eq_true _ _).1 hsame
  obtain ⟨found, hfound, hsame⟩ := (Option.any_eq_true _ _).1 hsame
  obtain ⟨z, hz, hsame⟩ := List.any_eq_true.1 hsame
  have hy := Except.eq_ok_of_toOption hy
  have hfound := Except.eq_ok_of_toOption hfound
  have hz := mem_methodsAmong.1 hz
  have hxtold : boxView.Told boxAsks (.method x) := by
    refine @Told.reply _ _ (boxAsks.take 1) _ (.method (.ofParts .methodDef 1)) (.method x) _ rfl nofun ?_
      List.mem_cons_self
    rw [reply, Action.runFrom_map, Except.eq_ok_of_toOption hx]
    rfl
  have hztold : boxView.Told boxAsks (.method z) := by
    refine @Told.reply _ _ (boxAsks.take 2) _ (.members boxOfBox "Get") (.members found) _ rfl
      (List.forall_mem_singleton.2 hinstance) ?_ hz
    rw [reply, Action.runFrom_map, hfound]
    rfl
  have hequal := ((equality_is_identity.2.2 boxView boxAsks).2 y z (.viewed hxtold hinstance hy) hztold).2 hsame
  exact ⟨x, y, found, hxtold, hy, hfound, by rw [hequal]; exact hz⟩

end FrameSymbols.LoadedModule
