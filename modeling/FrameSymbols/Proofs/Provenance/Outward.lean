/-
Recovery again and again.

A state machine can be nested in another one, so a recovered method may be a step method itself. Each time recovery leads to
another method, the type of that is the one around the type before, and otherwise the method stands for itself from then on
(`originalMethod_step`). So the methods end at one that stands for itself, after no more steps than there are types around
the first one, whatever else is asked on the way (`backtrack_ends`, `recovery_moves_outward`).
-/
import FrameSymbols.Proofs.Image.Grown
import FrameSymbols.Proofs.Provenance.StepSources

namespace FrameSymbols.LoadedModule

/-- goes back from a method once for each list of questions, which are asked before -/
def backtrack (m : LoadedModule) : MethodSymbol → List (List Ask) → Query MethodSymbol
  | x, [] => return x
  | x, asks :: gaps => do
    modify (m.run · asks)
    backtrack m (← m.originalMethod x) gaps

variable {m : LoadedModule} {memory : Memory}

theorem runFrom_originalMethod (m : LoadedModule) (x : MethodSymbol) (memory : Memory) :
    (m.originalMethod x).runFrom memory =
      (((m.provenance x).runFrom memory).1.map Provenance.method, ((m.provenance x).runFrom memory).2) := by
  have hmap : m.originalMethod x = Provenance.method <$> m.provenance x := (map_eq_pure_bind _ _).symm
  rw [hmap, Action.runFrom_map]

/-- one step stays at the method if there are none behind its type, and otherwise leads to the type around it -/
theorem originalMethod_step (hr : m.reader.Regular) (h : m.Coherent memory) {token : Token} {x : MethodSymbol}
    (hx : memory.method? token = some x) :
    ∃ y after source, (m.originalMethod x).runFrom memory = (.ok y, after) ∧ m.Coherent after ∧
      after.method? source = some y ∧
      (m.stepSources x.containing = [] ∧ y = x ∨
        m.stepSources x.containing ≠ [] ∧ x.containing.containing = some y.containing) := by
  obtain ⟨p, hp, hcases⟩ := provenance_outward hr h hx
  obtain ⟨hkeeps, hgrows, -⟩ := provenance_sound x h
  have hrun := runFrom_originalMethod m x memory
  rw [hp] at hrun
  rcases hcases with ⟨-, hnone, hself⟩ | ⟨-, hsome, houter, source, hsource⟩
  · exact ⟨p.method, _, token, hrun, hkeeps, by rw [hself]; exact hgrows.methods _ _ hx, .inl ⟨hnone, hself⟩⟩
  · exact ⟨p.method, _, source, hrun, hkeeps, hsource, .inr ⟨hsome, houter⟩⟩

theorem originalMethod_fixed (hr : m.reader.Regular) (h : m.Coherent memory) {token : Token} {x : MethodSymbol}
    (hx : memory.method? token = some x) (hnone : m.stepSources x.containing = []) :
    ((m.originalMethod x).runFrom memory).1 = .ok x := by
  obtain ⟨y, after, -, hrun, -, -, ⟨-, rfl⟩ | ⟨hsome, -⟩⟩ := originalMethod_step hr h hx
  · exact congrArg Prod.fst hrun
  · exact absurd hnone hsome

/-- going back never leaves the types around the first method, and ends if there are as many steps as such types -/
theorem backtrack_ends (hr : m.reader.Regular) (gaps : List (List Ask)) (h : m.Coherent memory) {token : Token}
    {x : MethodSymbol} (hx : memory.method? token = some x) :
    ∃ y after source, (m.backtrack x gaps).runFrom memory = (.ok y, after) ∧ m.Coherent after ∧
      after.method? source = some y ∧ (y = x ∨ y.containing ∈ x.containing.enclosing) ∧
      (m.stepSources x.containing = [] ∨ x.containing.enclosing.length ≤ gaps.length →
        m.stepSources y.containing = []) := by
  induction gaps generalizing memory token x with
  | nil =>
    refine ⟨x, memory, token, rfl, h, hx, .inl rfl, ?_⟩
    rintro (hnone | hlength)
    · exact hnone
    · have hc : x.containing.containing = none := by
        cases hc : x.containing.containing with
        | none => rfl
        | some outer => rw [TypeSymbol.enclosing_of_containing hc] at hlength; cases hlength
      unfold stepSources
      rw [hc]
      cases stepSourceName? x.containing <;> rfl
  | cons asks gaps ih =>
    obtain ⟨h', hg⟩ := run_coherent asks h
    obtain ⟨y, memory', source, hstep, hkeeps, hy, hcases⟩ := originalMethod_step hr h' (hg.methods _ _ hx)
    obtain ⟨z, after, token', hrun, hafter, hz, hinside, hends⟩ := ih hkeeps hy
    refine ⟨z, after, token', ?_, hafter, hz, ?_, fun hbound => hends ?_⟩
    · unfold backtrack
      rw [Action.runFrom_bind, Action.runFrom_modify]
      simp only
      rw [Action.runFrom_bind, hstep]
      exact hrun
    · rcases hcases with ⟨-, rfl⟩ | ⟨-, houter⟩
      · exact hinside
      · rw [TypeSymbol.enclosing_of_containing houter]
        rcases hinside with rfl | hinside
        · exact .inr List.mem_cons_self
        · exact .inr (List.mem_cons_of_mem _ hinside)
    · -- each step that leads on uses up one of the types
      rcases hcases with ⟨hnone, rfl⟩ | ⟨hsome, houter⟩
      · exact .inl hnone
      · rcases hbound with hnone | hlength
        · exact absurd hnone hsome
        · rw [TypeSymbol.enclosing_of_containing houter] at hlength
          exact .inr (Nat.le_of_succ_le_succ hlength)

/-- **Repeated recovery moves outward and stops.** Take a method that a view of an image grown entry by entry has resolved,
at any later time. If it is recovered, the type of the recovered method is the one around the type of the method. Going back
again and again, with any questions in between, stays among the types around the first one; after as many steps as there are
such types, the method stands for itself, and does so for good. -/
theorem recovery_moves_outward (file : String) (id : ModuleId) (entries : List Image.Entry) (image : Image)
    (himage : image = ((Image.empty file id).addAll entries).1) (ht : image.types.size < 2 ^ 24)
    (hm : image.methods.size < 2 ^ 24) (m : LoadedModule) (hreader : m.reader = image.reader) (before later : List Ask)
    (token : Token) (x : MethodSymbol) (hx : ((m.resolveMethod token).runFrom (m.after before)).1 = .ok x)
    (memory : Memory) (hmemory : memory = m.after (before ++ .method token :: later)) :
    (∃ p, ((m.provenance x).runFrom memory).1 = .ok p ∧
      (p.isRecovered = true → x.containing.containing = some p.method.containing)) ∧
    ∀ gaps : List (List Ask), ∃ y after, (m.backtrack x gaps).runFrom memory = (.ok y, after) ∧
      (y = x ∨ y.containing ∈ x.containing.enclosing) ∧
      (x.containing.enclosing.length ≤ gaps.length →
        ∀ more, ((m.originalMethod y).runFrom (m.run after more)).1 = .ok y) := by
  have hr : m.reader.Regular := by
    subst himage
    rw [hreader]
    exact Image.regular_addAll file id entries ht hm
  have h : m.Coherent memory := hmemory ▸ m.after_coherent _
  have hk : memory.method? token = some x := hmemory ▸ remembered_of_resolved hx
  constructor
  · obtain ⟨p, hp, ⟨hself, -⟩ | ⟨-, -, houter, -⟩⟩ := provenance_outward hr h hk
    · exact ⟨p, hp, fun hrecovered => absurd hrecovered (by rw [hself]; decide)⟩
    · exact ⟨p, hp, fun _ => houter⟩
  · intro gaps
    obtain ⟨y, after, source, hrun, hafter, hy, hinside, hends⟩ := backtrack_ends hr gaps h hk
    refine ⟨y, after, hrun, hinside, fun hlength more => ?_⟩
    obtain ⟨hmore, hg⟩ := run_coherent more hafter
    exact originalMethod_fixed hr hmore (hg.methods _ _ hy) (hends (.inr hlength))

/-- an iterator in the state machine of an iterator -/
def nestedIterators : Image :=
  ((Image.empty "Sample.dll" ⟨.replicate 16 7⟩).addAll
    [.assembly "Sample", .type "Demo" "Program" 1, .method "Foo" 0x96,
      .nestedType (.ofParts .typeDef 1) "<Foo>d__0" 3, .method "Bar" 0x96,
      .nestedType (.ofParts .typeDef 2) "<Bar>d__0" 3, .method "MoveNext" 0x1E1,
      .attribute (.ofParts .methodDef 1) "System.Runtime.CompilerServices" "IteratorStateMachineAttribute"
        (some "Demo.Program+<Foo>d__0"),
      .attribute (.ofParts .methodDef 2) "System.Runtime.CompilerServices" "IteratorStateMachineAttribute"
        (some "Demo.Program+<Foo>d__0+<Bar>d__0")]).1

/-- the inner step method leads back to the inner iterator and then to the outer one, which stands for itself -/
theorem recovery_moves_outward_nested :
    ∃ x y after, ((nestedIterators.view.resolveMethod (.ofParts .methodDef 3)).runFrom .empty).1 = .ok x ∧
      x.text = "Demo.Program+<Foo>d__0+<Bar>d__0::MoveNext" ∧
      (nestedIterators.view.backtrack x [[], []]).runFrom (nestedIterators.view.after [.method (.ofParts .methodDef 3)]) =
        (.ok y, after) ∧
      y.text = "Demo.Program::Foo" ∧
      ∀ more, ((nestedIterators.view.originalMethod y).runFrom (nestedIterators.view.run after more)).1 = .ok y := by
  have hcheck : ((nestedIterators.view.resolveMethod (.ofParts .methodDef 3)).runFrom .empty).1.toOption.any (fun x =>
      x.text == "Demo.Program+<Foo>d__0+<Bar>d__0::MoveNext" && x.containing.enclosing.length == 2 &&
        ((nestedIterators.view.backtrack x [[], []]).runFrom
          (nestedIterators.view.after [.method (.ofParts .methodDef 3)])).1.toOption.any fun y =>
            y.text == "Demo.Program::Foo") = true := by decide +kernel
  obtain ⟨x, hx, hcheck⟩ := (Option.any_eq_true _ _).1 hcheck
  obtain ⟨hfirst, hcheck⟩ := Bool.and_eq_true_iff.1 hcheck
  obtain ⟨htext, hlength⟩ := Bool.and_eq_true_iff.1 hfirst
  obtain ⟨z, hz, hlast⟩ := (Option.any_eq_true _ _).1 hcheck
  have hx := Except.eq_ok_of_toOption hx
  obtain ⟨-, hends⟩ := recovery_moves_outward "Sample.dll" _ _ nestedIterators rfl (by decide) (by decide)
    nestedIterators.view rfl [] [] _ x hx _ rfl
  obtain ⟨y, after, hrun, -, hfixed⟩ := hends [[], []]
  rw [List.nil_append] at hrun
  rw [hrun] at hz
  obtain rfl : y = z := Option.some.inj hz
  exact ⟨x, y, after, hx, beq_iff_eq.1 htext, hrun, beq_iff_eq.1 hlast, hfixed (Nat.le_of_eq (beq_iff_eq.1 hlength))⟩

end FrameSymbols.LoadedModule
