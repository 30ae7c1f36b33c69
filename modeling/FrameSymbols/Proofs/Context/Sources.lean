/-
Which method stands for the one that is asked for.

The name of a type and the attributes of the methods around it decide (`LoadedModule.stepSources`): if no method of the
enclosing type has the name that is embedded in the name of the type, and an attribute that leads back to it, then every
method of the type stands for itself. Otherwise the first such method stands for every one of them, the step method, the
constructors and what the type implements for its interfaces: the name of the method that is asked for plays no part
(`source_decided_by_type`).
-/
import FrameSymbols.Proofs.Context.Assembly
import FrameSymbols.Proofs.Context.Conversation
import FrameSymbols.Proofs.Module.Transparency
import FrameSymbols.Proofs.Provenance.StepSources

namespace FrameSymbols

namespace LoadedModule

variable {m : LoadedModule} {memory : Memory}

/-- the method is resolved first, and its provenance is asked in the memory that this leaves behind -/
theorem runFrom_sourceOf {token : Token} {x : MethodSymbol} (hx : ((m.resolveMethod token).runFrom memory).1 = .ok x) :
    (m.sourceOf token).runFrom memory = (m.provenance x).runFrom ((m.resolveMethod token).runFrom memory).2 := by
  rw [sourceOf, Action.runFrom_bind]
  rcases hrun : (m.resolveMethod token).runFrom memory with ⟨answer, memory'⟩
  rw [hrun] at hx
  cases hx
  rfl

end LoadedModule

namespace Context

variable {c : Context} {id : ModuleId} {m : LoadedModule}

theorem answer_getMethod (hm : c.findModule id = some m) (turns : List Turn) (token : Token) :
    c.answer turns (c.getMethod id token) = ((m.resolveMethod token).runFrom ((c.converse turns).1.of id)).1 :=
  (ask_within c id (·.resolveMethod token)).answer m hm _

/-- **The type decides which method stands for another.** Whenever a method can be told, so can the one that stands for
it. That is the method itself, if no method of the enclosing type is behind its type. Otherwise it is the first one that
is, or the method itself if the members of the enclosing type cannot be listed. The name of the method plays no part. -/
theorem source_decided_by_type (c : Context) (turns : List Turn) (id : ModuleId) (token : Token) (x : MethodSymbol)
    (hx : c.answer turns (c.getMethod id token) = .ok x) :
    ∃ m y, c.findModule id = some m ∧ c.answer turns (c.getSourceMethod id token) = .ok y ∧
      (m.stepSources x.containing = [] → y = x) ∧
      ∀ row more, m.stepSources x.containing = row :: more →
        c.answer (turns ++ [⟨id, fun _ => .source token⟩]) (c.getMethod id (.ofParts .methodDef row)) = .ok y ∨
        y = x ∧ ∃ outer name e, x.containing.containing = some outer ∧
          LoadedModule.stepSourceName? x.containing = some name ∧
          c.answer (turns ++ [⟨id, fun _ => .method token⟩]) (c.ask id (·.members outer name)) = .error e := by
  cases hm : c.findModule id with
  | none =>
    rw [answer, getMethod, (ask_within c id _).missing hm] at hx
    cases hx
  | some m =>
    rw [answer_getMethod hm] at hx
    have hsound := LoadedModule.resolveMethod_sound token (converse_coherent hm turns)
    have hremembered := hsound.answers x hx
    obtain ⟨p, hp, hself, hsource⟩ := LoadedModule.provenance_by_type hsound.keeps hremembered
    have hrun := LoadedModule.runFrom_sourceOf hx
    refine ⟨m, p.method, rfl, ?_, hself, fun row more hsources => ?_⟩
    · rw [answer, (getSourceMethod_within c id token).answer m hm, Action.runFrom_map, hrun, hp]
      rfl
    · rcases hsource row more hsources with hy | ⟨hxp, outer, name, e, hc, hs, he⟩
      · left
        have hcoherent := converse_coherent hm (turns ++ [⟨id, fun _ => .source token⟩])
        rw [answer_getMethod hm]
        refine LoadedModule.resolveMethod_remembered hcoherent ?_
        rw [converse_asked hm, Ask.replyOf, Action.runFrom_map, Action.runFrom_map, hrun]
        exact hy
      · right
        refine ⟨hxp, outer, name, e, hc, hs, ?_⟩
        rw [answer, (ask_within c id _).answer m hm, converse_asked hm, Ask.replyOf, Action.runFrom_map]
        exact he

/-- the sample, with a second method in the type of the state machine -/
def disposable : Image :=
  ((Image.empty "Sample.dll" ⟨.replicate 16 7⟩).addAll
    [.assembly "Sample", .type "Demo" "Program" 1, .method "Foo" 0x96,
      .nestedType (.ofParts .typeDef 1) "<Foo>d__0" 3, .method "MoveNext" 0x1E1,
      .method "System.IDisposable.Dispose" 0x1E1,
      .attribute (.ofParts .methodDef 1) "System.Runtime.CompilerServices" "IteratorStateMachineAttribute"
        (some "Demo.Program+<Foo>d__0")]).1

/-- the module with that type, on its own -/
def disposing : Context := around [ofImage disposable] {}

/-- disposing of an iterator is taken for the method that the user wrote -/
theorem source_decided_by_type_disposing :
    ∃ x m y, disposing.answer [] (disposing.getMethod disposable.header.id (.ofParts .methodDef 3)) = .ok x ∧
      x.name = "System.IDisposable.Dispose" ∧ disposing.findModule disposable.header.id = some m ∧
      m.stepSources x.containing = [1] ∧
      disposing.answer [] (disposing.getSourceMethod disposable.header.id (.ofParts .methodDef 3)) = .ok y ∧
      y.name = "Foo" ∧
      disposing.answer [⟨disposable.header.id, fun _ => .source (.ofParts .methodDef 3)⟩]
        (disposing.getMethod disposable.header.id (.ofParts .methodDef 1)) = .ok y := by
  have hdispose : (disposing.answer [] (disposing.getMethod disposable.header.id (.ofParts .methodDef 3))).toOption.map
      (fun x => (x.name, (disposing.findModule disposable.header.id).map (·.stepSources x.containing))) =
        some ("System.IDisposable.Dispose", some [1]) := by decide +kernel
  have hfoo : (disposing.answer [] (disposing.getSourceMethod disposable.header.id (.ofParts .methodDef 3))).toOption.map
      (·.name) = some "Foo" := by decide +kernel
  obtain ⟨x, hx, hpair⟩ := Option.map_eq_some_iff.1 hdispose
  obtain ⟨hname, hsources⟩ := Prod.mk.inj hpair
  have hx := Except.eq_ok_of_toOption hx
  obtain ⟨m, y, hm, hy, -, hsource⟩ := source_decided_by_type disposing [] _ _ x hx
  rw [hm] at hsources
  have hsources := Option.some.inj hsources
  rw [hy] at hfoo
  have hfoo : y.name = "Foo" := Option.some.inj hfoo
  rcases hsource 1 [] hsources with hone | ⟨hyx, -⟩
  · exact ⟨x, m, y, hx, hname, hm, hsources, hy, hfoo, hone⟩
  · rw [hyx, hname] at hfoo
    exact absurd hfoo (by decide)

end Context

end FrameSymbols
