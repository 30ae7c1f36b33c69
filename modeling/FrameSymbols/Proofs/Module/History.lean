/-
Histories of queries: what one module remembers after any sequence of questions.

A history starts with nothing remembered and asks the queries one after the other, with any arguments, whether they
succeed or fail (`run`). `Sound` is how the later modules speak about a single query: it forgets nothing, it keeps an
invariant of what is remembered, and its answers have a property. `sound_bind` follows the order in which a query
asks.
-/
import FrameSymbols.Provenance

namespace FrameSymbols

/-! ## What is remembered only grows -/

/-- `after` remembers what `before` does, under the same tokens -/
structure Memory.Extends (before after : Memory) : Prop where
  types : ∀ token t, before.type? token = some t → after.type? token = some t
  methods : ∀ token x, before.method? token = some x → after.method? token = some x

theorem Memory.Extends.refl (memory : Memory) : memory.Extends memory := ⟨fun _ _ h => h, fun _ _ h => h⟩

theorem Memory.Extends.trans {a b c : Memory} (h1 : a.Extends b) (h2 : b.Extends c) : a.Extends c :=
  ⟨fun token t h => h2.types token t (h1.types token t h), fun token x h => h2.methods token x (h1.methods token x h)⟩

theorem Memory.extends_keepType (memory : Memory) (token : Token) (t : TypeSymbol) :
    memory.Extends (memory.keepType token t) := by
  refine ⟨?_, fun _ _ h => h⟩
  intro other u h
  rw [type?_keepType]
  split
  · next hk => rw [hk.1, hk.2] at h; cases h
  · exact h

theorem Memory.extends_keepMethod (memory : Memory) (token : Token) (x : MethodSymbol) :
    memory.Extends (memory.keepMethod token x) := by
  refine ⟨fun _ _ h => h, ?_⟩
  intro other y h
  rw [method?_keepMethod]
  split
  · next hk => rw [hk.1, hk.2] at h; cases h
  · exact h

@[simp] theorem Memory.type?_empty (token : Token) : Memory.empty.type? token = none := by
  simp [type?, empty]

@[simp] theorem Memory.method?_empty (token : Token) : Memory.empty.method? token = none := by
  simp [method?, empty]

namespace LoadedModule

/-! ## Histories -/

/-- a question to the view of a module -/
inductive Ask where
  | type (token : Token)
  | method (token : Token)
  | members (t : TypeSymbol) (name : String)
  | typeForName (text : String)
  | argument (method : MethodSymbol) (a : AttributeType)
  | provenance (method : MethodSymbol)

/-- what is remembered after a question, also when it has no answer -/
def step (m : LoadedModule) (memory : Memory) : Ask → Memory
  | .type token => ((m.resolveType token).runFrom memory).2
  | .method token => ((m.resolveMethod token).runFrom memory).2
  | .members t name => ((m.members t name).runFrom memory).2
  | .typeForName text => ((m.typeForName text).runFrom memory).2
  | .argument method a => ((liftM (m.attributeArgument method a) : Query (Option String)).runFrom memory).2
  | .provenance method => ((m.provenance method).runFrom memory).2

def run (m : LoadedModule) (memory : Memory) (asks : List Ask) : Memory := asks.foldl m.step memory

/-- what a fresh view remembers after a sequence of questions -/
def after (m : LoadedModule) (asks : List Ask) : Memory := m.run .empty asks

theorem after_append (m : LoadedModule) (asks more : List Ask) :
    m.after (asks ++ more) = m.run (m.after asks) more := by
  simp [after, run, List.foldl_append]

end LoadedModule

/-! ## Queries that keep an invariant -/

/-- from `memory`, the query keeps `inv` and forgets nothing, and its answers satisfy `post` afterwards -/
structure Query.Sound {α : Type} (inv : Memory → Prop) (memory : Memory) (q : Query α) (post : α → Memory → Prop) :
    Prop where
  keeps : inv (q.runFrom memory).2
  grows : memory.Extends (q.runFrom memory).2
  answers : ∀ a, (q.runFrom memory).1 = .ok a → post a (q.runFrom memory).2

namespace Query

variable {α β : Type} {inv : Memory → Prop} {memory : Memory}

theorem sound_pure {post : α → Memory → Prop} {a : α} (hi : inv memory) (h : post a memory) :
    Sound inv memory (pure a) post :=
  ⟨hi, Memory.Extends.refl memory, fun b hb => by cases hb; exact h⟩

theorem sound_throw {post : α → Memory → Prop} (e : Error) (hi : inv memory) :
    Sound inv memory (throw e : Query α) post :=
  ⟨hi, Memory.Extends.refl memory, fun b hb => by cases hb⟩

theorem sound_get (hi : inv memory) : Sound inv memory (get : Query Memory) (fun s after => s = after) :=
  ⟨hi, Memory.Extends.refl memory, fun s hs => by cases hs; rfl⟩

theorem sound_lift (x : Except Error α) (hi : inv memory) :
    Sound inv memory (liftM x : Query α) (fun a _ => x = .ok a) :=
  ⟨hi, Memory.Extends.refl memory, fun _ h => h⟩

theorem Sound.imp {q : Query α} {mid post : α → Memory → Prop} (hq : Sound inv memory q mid)
    (h : ∀ a memory', inv memory' → mid a memory' → post a memory') : Sound inv memory q post :=
  ⟨hq.keeps, hq.grows, fun a ha => h a _ hq.keeps (hq.answers a ha)⟩

theorem sound_bind {q : Query α} {f : α → Query β} {mid : α → Memory → Prop} {post : β → Memory → Prop}
    (hq : Sound inv memory q mid)
    (hf : ∀ a memory', inv memory' → memory.Extends memory' → mid a memory' → Sound inv memory' (f a) post) :
    Sound inv memory (q >>= f) post := by
  obtain ⟨hk, hg, ha⟩ := hq
  have hrun := Action.runFrom_bind q f memory
  cases hq : q.runFrom memory with
  | mk answer memory' =>
    rw [hq] at hrun hk hg ha
    cases answer with
    | error e =>
      refine ⟨?_, ?_, ?_⟩
      · rw [hrun]; exact hk
      · rw [hrun]; exact hg
      · intro b hb
        rw [hrun] at hb
        cases hb
    | ok a =>
      obtain ⟨hk', hg', ha'⟩ := hf a memory' hk hg (ha a rfl)
      refine ⟨?_, ?_, ?_⟩
      · rw [hrun]; exact hk'
      · rw [hrun]; exact hg.trans hg'
      · intro b hb
        rw [hrun] at hb ⊢
        exact ha' b hb

theorem sound_map {q : Query α} {f : α → β} {mid : α → Memory → Prop} {post : β → Memory → Prop}
    (hq : Sound inv memory q mid)
    (hf : ∀ a memory', inv memory' → memory.Extends memory' → mid a memory' → post (f a) memory') :
    Sound inv memory (f <$> q) post := by
  rw [map_eq_pure_bind]
  exact sound_bind hq fun a memory' hi hg hm => sound_pure hi (hf a memory' hi hg hm)

/-- a query whose failure is caught answers in any case -/
theorem sound_toOption {q : Query α} {mid : α → Memory → Prop} (hq : Sound inv memory q mid) :
    Sound inv memory (Action.toOption q) (fun found after => ∀ a, found = some a → mid a after) := by
  refine ⟨hq.keeps, hq.grows, ?_⟩
  intro found hf a ha
  simp only [Action.runFrom_toOption, Except.ok.injEq] at hf
  subst ha
  refine hq.answers a ?_
  cases h : (q.runFrom memory).1 with
  | error e => rw [h] at hf; cases hf
  | ok b => rw [h] at hf; cases hf; rfl

end Query

end FrameSymbols
