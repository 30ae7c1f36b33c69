/-
Where the members of instances come from.

Nothing that recovery asks about a step method depends on the arguments of its type: the name, the type around it and the
definition behind it are those of the definition. So a view of a method has the provenance of the method, and stands for
itself where the method does (`provenance_view`). In a regular reader a method also has one provenance wherever it is
remembered (`provenance_unique`): what it comes from are methods of the type around its own, which it carries with it.
`provenance_of_instance` puts this together for images that are grown entry by entry.
-/
import FrameSymbols.Proofs.Image.Grown
import FrameSymbols.Proofs.Provenance.StepSources

namespace FrameSymbols

namespace Provenance

/-- the same outcome for another step method, which stands for itself where the first one does -/
def forStep (y : MethodSymbol) : Provenance → Provenance
  | .ordinary _ => .ordinary y
  | .recovered z => .recovered z
  | .unproven _ => .unproven y
  | .ambiguous z candidates => .ambiguous z candidates

theorem forStep_ofProven (x y : MethodSymbol) (proven : List MethodSymbol) :
    (ofProven x proven).forStep y = .ofProven y proven := by
  match proven with
  | [] | [_] | _ :: _ :: _ => rfl

end Provenance

namespace LoadedModule

variable {m : LoadedModule} {memory : Memory}

/-- two methods from one row, in types with one definition, have the same provenance, and asking for it leaves the same
behind -/
theorem provenance_view {x y : MethodSymbol} (hx : x.origin.module? = some m.id) (ho : y.origin = x.origin)
    (hrx : x.containing.Rooted) (hry : y.containing.Rooted) (hd : y.containing.definition = x.containing.definition)
    (memory : Memory) :
    (m.provenance y).runFrom memory =
      (((m.provenance x).runFrom memory).1.map (.forStep y), ((m.provenance x).runFrom memory).2) := by
  have hname : stepSourceName? y.containing = stepSourceName? x.containing := by
    unfold stepSourceName?
    rw [← hry.name_definition, hd, hrx.name_definition]
  have houter : y.containing.containing = x.containing.containing := by
    rw [← hry.containing_definition, hd, hrx.containing_definition]
  rw [runFrom_provenance hx, runFrom_provenance (by rw [ho]; exact hx), hname, houter, hd]
  cases stepSourceName? x.containing with
  | none => rfl
  | some name =>
    cases x.containing.containing with
    | none => rfl
    | some outer =>
      rcases hmembers : (m.members outer name).runFrom memory with ⟨e | found, memory'⟩
      · simp only [hmembers]
        rfl
      · simp only [hmembers]
        rcases (m.declaring x.containing.definition (methodsAmong found)).runFrom memory' with ⟨e | proven, memory''⟩
        · rfl
        · simp only [Except.map, Provenance.forStep_ofProven]

/-- methods that are remembered for the same rows in two memories are equal if they belong to one type -/
theorem eq_of_rows {before after : Memory} (h : m.Coherent before) (h' : m.Coherent after) {outer : Option TypeSymbol}
    {rows : List UInt32} {xs ys : List MethodSymbol}
    (hx : List.Forall₂ (fun row x => before.method? (.ofParts .methodDef row) = some x) rows xs)
    (hy : List.Forall₂ (fun row y => after.method? (.ofParts .methodDef row) = some y) rows ys)
    (houter : ∀ x ∈ xs, outer = some x.containing) (houter' : ∀ y ∈ ys, outer = some y.containing) : xs = ys := by
  induction hx generalizing ys with
  | nil => cases hy; rfl
  | @cons row x rows xs hrow _ ih =>
    obtain ⟨y, more, hrow', hmore, rfl⟩ := List.forall₂_cons_left_iff.1 hy
    obtain ⟨hhere, hrest⟩ := List.forall_mem_cons.1 houter
    obtain ⟨hhere', hrest'⟩ := List.forall_mem_cons.1 houter'
    have hsame : x.containing = y.containing := Option.some.inj (hhere.symm.trans hhere')
    rw [(h.methods _ _ hrow).eq_of_containing (h'.methods _ _ hrow') hsame, ih hmore hrest hrest']

/-- a method has one provenance wherever it is remembered -/
theorem provenance_unique (hr : m.reader.Regular) {before after : Memory} (h : m.Coherent before)
    (h' : m.Coherent after) {token : Token} {x : MethodSymbol} (hx : before.method? token = some x)
    (hx' : after.method? token = some x) :
    ((m.provenance x).runFrom before).1 = ((m.provenance x).runFrom after).1 := by
  rcases provenance_regular hr h hx with ⟨hs, hp⟩ | ⟨hs, proven, hp, hshown, houter⟩ <;>
    rcases provenance_regular hr h' hx' with ⟨hs', hq⟩ | ⟨hs', proven', hq, hshown', houter'⟩
  · rw [hp, hq]
  · exact absurd hs hs'
  · exact absurd hs' hs
  · rw [hp, hq, eq_of_rows (provenance_sound x h).keeps (provenance_sound x h').keeps hshown hshown' houter houter']

/-- what was recovered is a definition, in a type that is one -/
theorem recovered_definition (hr : m.reader.Regular) (h : m.Coherent memory) {token : Token} {x : MethodSymbol}
    (hx : memory.method? token = some x) {p : Provenance} (hp : ((m.provenance x).runFrom memory).1 = .ok p)
    (hrecovered : p.isRecovered = true) : p.method.definition = p.method ∧ p.method.containing.isInstance = false := by
  obtain ⟨q, hq, hcases⟩ := provenance_outward hr h hx
  obtain rfl : p = q := Except.ok.inj (hp.symm.trans hq)
  rcases hcases with ⟨hself, -⟩ | ⟨-, -, -, source, hsource⟩
  · rw [hself] at hrecovered
    cases hrecovered
  · have hkeeps := (provenance_sound x h).keeps
    obtain ⟨-, owner, hcontaining⟩ := hkeeps.method_origin hsource
    exact ⟨hkeeps.method_definition hsource, hkeeps.type_isInstance hcontaining⟩

/-- **Recovery does not depend on the arguments.** Take a method that a view of an image grown entry by entry has resolved,
of a type with parameters. Any arguments of the right number make an instance of the type, and the method can be viewed
there. Whatever is asked besides, the view of the method has the outcome that the method has: as many candidates and the same
recovered method, which is a definition, and the view itself where the method stands for itself. -/
theorem provenance_of_instance (file : String) (id : ModuleId) (entries : List Image.Entry) (image : Image)
    (himage : image = ((Image.empty file id).addAll entries).1) (ht : image.types.size < 2 ^ 24)
    (hm : image.methods.size < 2 ^ 24) (m : LoadedModule) (hreader : m.reader = image.reader) (before : List Ask)
    (token : Token) (x : MethodSymbol) (hx : ((m.resolveMethod token).runFrom (m.after before)).1 = .ok x)
    (hparams : x.containing.genericParams ≠ []) (args : List TypeSymbol)
    (hargs : args.length = x.containing.genericParams.length) :
    ∃ t y, x.containing.construct args = .ok t ∧ x.asMemberOf t = .ok y ∧ y.containing = t ∧
      ∀ later later' : List Ask, ∃ p,
        ((m.provenance x).runFrom (m.after (before ++ .method token :: later))).1 = .ok p ∧
        ((m.provenance y).runFrom (m.after (before ++ .method token :: later'))).1 = .ok (p.forStep y) ∧
        (p.isRecovered = true → p.method.definition = p.method ∧ p.method.containing.isInstance = false) := by
  have hr : m.reader.Regular := by
    subst himage
    rw [hreader]
    exact Image.regular_addAll file id entries ht hm
  have hremembered : ∀ later, (m.after (before ++ .method token :: later)).method? token = some x :=
    fun later => remembered_of_resolved hx
  have hcoherent := m.after_coherent (before ++ [.method token])
  have hdefinition := hcoherent.method_definition (hremembered [])
  -- the instance, and the method in it
  obtain ⟨-, owner, howner⟩ := hcoherent.method_origin (hremembered [])
  have hself := hcoherent.type_definition howner
  have hrooted := (hcoherent.knows howner).rooted
  have hconstruct := TypeSymbol.construct_eq_ok_iff.2 ⟨⟨by rwa [hself], by rwa [hself]⟩, rfl⟩
  have htd := TypeSymbol.definition_of_construct hconstruct
  obtain ⟨y, hview, hyd, hinstance, -⟩ :=
    MethodSymbol.view_of_definition hdefinition (by rw [htd]; exact TypeSymbol.same_refl _)
  have hcontaining := hinstance (TypeSymbol.isInstance_of_construct hconstruct)
  refine ⟨_, y, hconstruct, hview, hcontaining, fun later later' => ?_⟩
  have h := m.after_coherent (before ++ .method token :: later)
  have h' := m.after_coherent (before ++ .method token :: later')
  obtain ⟨p, hp, -⟩ := provenance_outward hr h (hremembered later)
  refine ⟨p, hp, ?_, recovered_definition hr h (hremembered later) hp⟩
  rw [provenance_view (hcoherent.method_module (hremembered []))
    (by rw [MethodSymbol.origin_asMemberOf hview, hdefinition]) hrooted
    (by rw [hcontaining]; exact hrooted.construct hconstruct) (by rw [hcontaining, htd]),
    ← provenance_unique hr h h' (hremembered later) (hremembered later'), hp]
  rfl

/-- a generic type with an iterator, whose state machine takes the same parameter -/
def genericIterator : Image :=
  ((Image.empty "Sample.dll" ⟨.replicate 16 7⟩).addAll
    [.assembly "Sample", .type "Demo" "Box`1" 1, .genericParams (.ofParts .typeDef 1) ["T"], .method "Foo" 0x96,
      .nestedType (.ofParts .typeDef 1) "<Foo>d__0" 3, .genericParams (.ofParts .typeDef 2) ["T"],
      .method "MoveNext" 0x1E1,
      .attribute (.ofParts .methodDef 1) "System.Runtime.CompilerServices" "IteratorStateMachineAttribute"
        (some "Demo.Box`1+<Foo>d__0")]).1

/-- the step method of the state machine leads back to the iterator, also as a member of an instance of the machine -/
theorem provenance_of_instance_iterator :
    ∃ x t y z, ((genericIterator.view.resolveMethod (.ofParts .methodDef 2)).runFrom .empty).1 = .ok x ∧
      x.containing.construct [x.containing] = .ok t ∧ x.asMemberOf t = .ok y ∧
      ((genericIterator.view.provenance y).runFrom (genericIterator.view.after [.method (.ofParts .methodDef 2)])).1 =
        .ok (.recovered z) ∧ z.text = "Demo.Box`1::Foo" := by
  have hcheck : ((genericIterator.view.resolveMethod (.ofParts .methodDef 2)).runFrom .empty).1.toOption.any (fun x =>
      x.containing.genericParams.length == 1 &&
        ((genericIterator.view.provenance x).runFrom
          (genericIterator.view.after [.method (.ofParts .methodDef 2)])).1.toOption.any fun
            | .recovered z => z.text == "Demo.Box`1::Foo"
            | _ => false) = true := by decide +kernel
  obtain ⟨x, hx, hcheck⟩ := (Option.any_eq_true _ _).1 hcheck
  obtain ⟨hparams, hcheck⟩ := Bool.and_eq_true_iff.1 hcheck
  obtain ⟨q, hq, hcheck⟩ := (Option.any_eq_true _ _).1 hcheck
  have hx := Except.eq_ok_of_toOption hx
  have hlength : x.containing.genericParams.length = 1 := beq_iff_eq.1 hparams
  obtain ⟨t, y, ht, hy, -, hsame⟩ := provenance_of_instance "Sample.dll" _ _ genericIterator rfl (by decide) (by decide)
    genericIterator.view rfl [] _ x hx (by rintro hnil; rw [hnil] at hlength; cases hlength) [x.containing] hlength.symm
  obtain ⟨p, hp, hview, -⟩ := hsame [] []
  obtain rfl : q = p := Except.ok.inj ((Except.eq_ok_of_toOption hq).symm.trans hp)
  match q with
  | .recovered z => exact ⟨x, t, y, z, hx, ht, hy, hview, beq_iff_eq.1 hcheck⟩
  | .ordinary _ | .unproven _ | .ambiguous _ _ => cases hcheck

end LoadedModule

end FrameSymbols
