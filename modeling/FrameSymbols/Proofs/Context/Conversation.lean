/-
Conversations with a context.

What a view tells in answer to one question is remembered, was handed over, or is a member of the type that was searched
(`reply_tells`). A client asks the modules of a context one question after the other, each made from what it was told so
far (`Turn`, `converse`). Every question to a context goes to the view of one module and touches no other memory (`Within`).
So what a context remembers of a module, after any conversation, is what the view of that module remembers after some
questions of its own (`converse_of`). And two contexts that share some of their modules stay in step about them, as long as
these are asked what depends on their own answers only (`turn_in_step`, `converse_in_step`).
-/
import FrameSymbols.Proofs.Context.Grouping
import FrameSymbols.Proofs.Module.Coherence

namespace FrameSymbols

/-- what a module tells when it answers -/
inductive Reply where
  | type (t : TypeSymbol)
  | method (x : MethodSymbol)
  | symbol (s : Symbol)
  | members (symbols : List Symbol)
  | argument (text : Option String)
  | provenance (p : Provenance)

def Reply.symbols : Reply → List Symbol
  | .type t => [.type t]
  | .method x => [.method x]
  | .symbol s => [s]
  | .members symbols => symbols
  | .argument _ => []
  | .provenance p => [.method p.method]

namespace LoadedModule

/-- the symbols that are handed over with a question -/
def Ask.symbols : Ask → List Symbol
  | .type _ | .method _ | .typeForName _ => []
  | .members t _ => [.type t]
  | .argument x _ | .provenance x => [.method x]

def reply (m : LoadedModule) : Ask → Query Reply
  | .type token => .type <$> m.resolveType token
  | .method token => .method <$> m.resolveMethod token
  | .members t name => .members <$> m.members t name
  | .typeForName text => .type <$> m.typeForName text
  | .argument method a => .argument <$> liftM (m.attributeArgument method a)
  | .provenance method => .provenance <$> m.provenance method

theorem reply_step (m : LoadedModule) (ask : Ask) (memory : Memory) :
    ((m.reply ask).runFrom memory).2 = m.step memory ask := by
  cases ask <;> simp only [reply, step, Action.runFrom_map]

/-- the type in which members are looked for to answer a question -/
def Ask.searched : Ask → Option TypeSymbol
  | .members t _ => some t
  | .provenance x => x.containing.containing
  | _ => none

theorem Ask.searched_cases {ask : Ask} {t : TypeSymbol} (h : ask.searched = some t) :
    .type t ∈ ask.symbols ∨ ∃ x, .method x ∈ ask.symbols ∧ x.containing.containing = some t := by
  cases ask with
  | members u name => cases h; exact .inl List.mem_cons_self
  | provenance x => exact .inr ⟨x, List.mem_cons_self, h⟩
  | type | method | typeForName | argument => cases h

/-- what can be told in answer to a question: a known type, a remembered method, a symbol that was handed over, or a member
of the type that was searched -/
inductive Tells (memory : Memory) (ask : Ask) : Symbol → Prop where
  | type {t : TypeSymbol} (known : Knows memory t) : Tells memory ask (.type t)
  | method {token : Token} {x : MethodSymbol} (remembered : memory.method? token = some x) : Tells memory ask (.method x)
  | given {s : Symbol} (among : s ∈ ask.symbols) : Tells memory ask s
  | member {t : TypeSymbol} {row : UInt32} {y : MethodSymbol} (searched : ask.searched = some t)
      (shown : ShownFor t memory row y) : Tells memory ask (.method y)

open Query in
/-- nothing else is told -/
theorem reply_tells {m : LoadedModule} {memory : Memory} (h : m.Coherent memory) (ask : Ask) :
    Sound m.Coherent memory (m.reply ask) (fun reply after => ∀ s ∈ reply.symbols, Tells after ask s) := by
  cases ask with
  | type token =>
    exact sound_map (resolveType_sound token h) fun t _ h1 _ ht => List.forall_mem_singleton.2 (.type (h1.knows ht))
  | method token =>
    exact sound_map (resolveMethod_sound token h) fun _ _ _ _ hx => List.forall_mem_singleton.2 (.method hx)
  | members t name =>
    refine sound_map (members_sound t name h) ?_
    rintro found after hafter - ⟨row, run, -, -, hshown, htypes⟩ (u | y) hs
    · obtain ⟨row', hu⟩ := htypes u hs
      exact .type (hafter.knows hu)
    · obtain ⟨row', hrow⟩ := shown_of_mem hshown (mem_methodsAmong.2 hs)
      exact .member rfl hrow
  | typeForName text =>
    exact sound_map (typeForName_sound text h) fun _ _ _ _ ht => List.forall_mem_singleton.2 (.type ht)
  | argument x a => exact sound_map (sound_lift (m.attributeArgument x a) h) fun _ _ _ _ _ => nofun
  | provenance x =>
    refine sound_map (provenance_sound x h) ?_
    rintro p after - - (hp | ⟨outer, row, houter, hshown⟩)
    · exact List.forall_mem_singleton.2 (.given (by rw [hp]; exact List.mem_cons_self))
    · exact List.forall_mem_singleton.2 (.member houter hshown)

def sourceOf (m : LoadedModule) (token : Token) : Query Provenance := do m.provenance (← m.resolveMethod token)

def symbolOf (m : LoadedModule) (token : Token) : Query Symbol :=
  match token.tableId? with
  | some .typeDef => .type <$> m.resolveType token
  | some .methodDef => .method <$> Provenance.method <$> m.sourceOf token
  | _ => throw (.tokenKindMismatch token .typeOrMethod)

theorem symbolOf_type (m : LoadedModule) {token : Token} (h : token.tableId? = some .typeDef) :
    m.symbolOf token = .type <$> m.resolveType token := by rw [symbolOf, h]

theorem symbolOf_method (m : LoadedModule) {token : Token} (h : token.tableId? = some .methodDef) :
    m.symbolOf token = .method <$> Provenance.method <$> m.sourceOf token := by rw [symbolOf, h]

theorem symbolOf_other (m : LoadedModule) {token : Token} (ht : token.tableId? ≠ some .typeDef)
    (hm : token.tableId? ≠ some .methodDef) :
    m.symbolOf token = throw (.tokenKindMismatch token .typeOrMethod) := by
  unfold symbolOf
  split
  · next h => exact absurd h ht
  · next h => exact absurd h hm
  · rfl

theorem sourceOf_run (m : LoadedModule) (token : Token) (memory : Memory) :
    ∃ asks, ((m.sourceOf token).runFrom memory).2 = m.run memory asks := by
  unfold sourceOf
  rw [Action.runFrom_bind]
  cases hrun : (m.resolveMethod token).runFrom memory with
  | mk answer memory' =>
    have hstep : m.step memory (.method token) = memory' := congrArg Prod.snd hrun
    cases answer with
    | error e => exact ⟨[.method token], hstep.symm⟩
    | ok x => exact ⟨[.method token, .provenance x], by rw [← hstep]; rfl⟩

end LoadedModule

namespace Context

/-! ## One module at a time -/

theorem lookup_filter_of_ne {entries : List (ModuleId × Memory)} {id other : ModuleId} (h : other ≠ id) :
    (entries.filter (·.1 != id)).lookup other = entries.lookup other := by
  induction entries with
  | nil => rfl
  | cons entry entries ih =>
    obtain ⟨key, memory⟩ := entry
    rw [List.filter_cons, List.lookup_cons]
    by_cases hkey : other = key
    · subst hkey
      rw [if_pos (bne_iff_ne.2 h), List.lookup_cons, beq_self_eq_true]
    · have hother : (other == key) = false := beq_eq_false_iff_ne.2 hkey
      split
      · rw [List.lookup_cons, hother]
        exact ih
      · rw [hother]
        exact ih

theorem Memories.of_put (memories : Memories) (id other : ModuleId) (memory : Memory) :
    (memories.put id memory).of other = if other = id then memory else memories.of other := by
  unfold put of
  rw [List.lookup_cons]
  by_cases h : other = id
  · rw [if_pos h, beq_iff_eq.2 h]
    rfl
  · rw [if_neg h, beq_eq_false_iff_ne.2 h, lookup_filter_of_ne h]

/-- a query of a context is that of one module: it fails if the module is missing, asks its view if not, and leaves what
is remembered of the others -/
structure Within {α : Type} (c : Context) (id : ModuleId) (q : Query α) (view : LoadedModule → FrameSymbols.Query α) :
    Prop where
  missing : c.findModule id = none → ∀ memories, q.runFrom memories = (.error (.moduleNotFound id), memories)
  answer : ∀ m, c.findModule id = some m → ∀ memories,
    (q.runFrom memories).1 = ((view m).runFrom (memories.of id)).1
  remembered : ∀ m, c.findModule id = some m → ∀ memories,
    (q.runFrom memories).2.of id = ((view m).runFrom (memories.of id)).2
  others : ∀ memories other, other ≠ id → (q.runFrom memories).2.of other = memories.of other

variable {α β : Type} {c : Context} {id : ModuleId}

theorem runFrom_ask (c : Context) (id : ModuleId) (q : LoadedModule → FrameSymbols.Query α) (memories : Memories) :
    (c.ask id q).runFrom memories = match c.findModule id with
      | none => (.error (.moduleNotFound id), memories)
      | some m => (((q m).runFrom (memories.of id)).1, memories.put id ((q m).runFrom (memories.of id)).2) := by
  unfold ask moduleOf
  rw [Action.runFrom_bind, Action.runFrom_lift]
  cases c.findModule id <;> rfl

theorem ask_within (c : Context) (id : ModuleId) (q : LoadedModule → FrameSymbols.Query α) :
    Within c id (c.ask id q) q where
  missing := fun h memories => by rw [runFrom_ask, h]
  answer := fun m h memories => by rw [runFrom_ask, h]
  remembered := fun m h memories => by
    rw [runFrom_ask, h]
    exact (Memories.of_put _ _ _ _).trans (if_pos rfl)
  others := fun memories other hne => by
    rw [runFrom_ask]
    cases c.findModule id with
    | none => rfl
    | some m => exact (Memories.of_put _ _ _ _).trans (if_neg hne)

theorem Within.map {q : Query α} {view : LoadedModule → FrameSymbols.Query α} (h : Within c id q view) (f : α → β) :
    Within c id (f <$> q) fun m => f <$> view m where
  missing := fun hn memories => by rw [Action.runFrom_map, h.missing hn]; rfl
  answer := fun m hm memories => by rw [Action.runFrom_map, Action.runFrom_map, h.answer m hm]
  remembered := fun m hm memories => by rw [Action.runFrom_map, Action.runFrom_map, h.remembered m hm]
  others := fun memories other hne => by rw [Action.runFrom_map, h.others memories other hne]

/-- two contexts with the same module, and the same remembered of it, answer alike -/
theorem Within.agrees {c' : Context} {q q' : Query α} {view : LoadedModule → FrameSymbols.Query α}
    (h : Within c id q view) (h' : Within c' id q' view) (hc : c.findModule id = c'.findModule id)
    {memories memories' : Memories} (hm : memories.of id = memories'.of id) :
    (q.runFrom memories).1 = (q'.runFrom memories').1 ∧
      (q.runFrom memories).2.of id = (q'.runFrom memories').2.of id := by
  cases hf : c.findModule id with
  | none =>
    rw [h.missing hf, h'.missing (hc ▸ hf)]
    exact ⟨rfl, hm⟩
  | some m =>
    rw [h.answer m hf, h'.answer m (hc ▸ hf), h.remembered m hf, h'.remembered m (hc ▸ hf), hm]
    exact ⟨rfl, rfl⟩

theorem getSourceMethod_within (c : Context) (id : ModuleId) (token : Token) :
    Within c id (c.getSourceMethod id token) fun m => Provenance.method <$> m.sourceOf token := by
  have hmap : c.getSourceMethod id token = Provenance.method <$> c.resolveSourceMethod id token :=
    (map_eq_pure_bind _ _).symm
  rw [hmap]
  exact (ask_within c id _).map _

/-- a token of another table is refused without asking the view -/
theorem refuse_within (c : Context) (id : ModuleId) (e : Error) :
    Within c id (do let _ ← c.moduleOf id; throw e : Query α) fun _ => throw e := by
  have hrun : ∀ memories, (do let _ ← c.moduleOf id; throw e : Query α).runFrom memories =
      (match c.findModule id with
        | none => .error (.moduleNotFound id)
        | some _ => .error e, memories) := by
    intro memories
    unfold moduleOf
    rw [Action.runFrom_bind, Action.runFrom_lift]
    cases c.findModule id <;> rfl
  constructor
  · intro hn memories
    rw [hrun, hn]
  · intro m hm memories
    rw [hrun, hm]
    rfl
  · intro m hm memories
    rw [hrun]
    rfl
  · intro memories other _
    rw [hrun]

theorem resolve_within (c : Context) (id : ModuleId) (token : Token) :
    Within c id (c.resolve id token) (·.symbolOf token) := by
  unfold resolve
  split
  · next h =>
    simp only [LoadedModule.symbolOf_type _ h, ← map_eq_pure_bind]
    exact (ask_within c id _).map _
  · next h =>
    simp only [LoadedModule.symbolOf_method _ h, ← map_eq_pure_bind]
    exact (getSourceMethod_within c id token).map _
  · next ht hm =>
    simp only [LoadedModule.symbolOf_other _ ht hm]
    exact refuse_within c id _

/-! ## Conversations -/

inductive Ask where
  | type (token : Token)
  | method (token : Token)
  | source (token : Token)
  | origin (token : Token)
  | symbol (token : Token)
  /-- a question to the view of the module -/
  | view (ask : LoadedModule.Ask)

/-- the symbols that are handed over with a question -/
def Ask.symbols : Ask → List Symbol
  | .view ask => ask.symbols
  | _ => []

def reply (c : Context) (id : ModuleId) : Ask → Query Reply
  | .type token => .type <$> c.getType id token
  | .method token => .method <$> c.getMethod id token
  | .source token => .method <$> c.getSourceMethod id token
  | .origin token => .provenance <$> c.resolveSourceMethod id token
  | .symbol token => .symbol <$> c.resolve id token
  | .view ask => c.ask id (·.reply ask)

/-- the answer of the view of a module to a question about it -/
def Ask.replyOf (m : LoadedModule) : Ask → FrameSymbols.Query Reply
  | .type token => .type <$> m.resolveType token
  | .method token => .method <$> m.resolveMethod token
  | .source token => .method <$> Provenance.method <$> m.sourceOf token
  | .origin token => .provenance <$> m.sourceOf token
  | .symbol token => .symbol <$> m.symbolOf token
  | .view ask => m.reply ask

theorem reply_within (c : Context) (id : ModuleId) (ask : Ask) : Within c id (c.reply id ask) ask.replyOf := by
  cases ask with
  | type token => exact (ask_within c id _).map _
  | method token => exact (ask_within c id _).map _
  | source token => exact (getSourceMethod_within c id token).map _
  | origin token => exact (ask_within c id _).map _
  | symbol token => exact (resolve_within c id token).map _
  | view ask => exact ask_within c id _

/-- what a client was told, by which module, in order -/
abbrev Log := List (ModuleId × Except Error Reply)

/-- a turn of a client: it asks a module, and makes the question from what it was told so far -/
structure Turn where
  id : ModuleId
  ask : Log → Ask

/-- what is remembered, and what the client was told, after a turn -/
def turn (c : Context) (s : Memories × Log) (t : Turn) : Memories × Log :=
  let run := (c.reply t.id (t.ask s.2)).runFrom s.1
  (run.2, s.2 ++ [(t.id, run.1)])

/-- what is remembered, and what the client was told, after a conversation with a fresh context -/
def converse (c : Context) (turns : List Turn) : Memories × Log := turns.foldl c.turn (.empty, [])

theorem converse_concat (c : Context) (turns : List Turn) (t : Turn) :
    c.converse (turns ++ [t]) = c.turn (c.converse turns) t := by
  rw [converse, List.foldl_append]
  rfl

def answer (c : Context) (turns : List Turn) (q : Query α) : Except Error α := (q.runFrom (c.converse turns).1).1

/-- one more question leaves behind what it leaves behind in the view -/
theorem converse_asked {m : LoadedModule} (hm : c.findModule id = some m) (turns : List Turn) (ask : Ask) :
    (c.converse (turns ++ [⟨id, fun _ => ask⟩])).1.of id =
      ((ask.replyOf m).runFrom ((c.converse turns).1.of id)).2 := by
  rw [converse_concat]
  exact (reply_within c id ask).remembered m hm _

/-- a question of a context is a few questions to a view -/
theorem replyOf_run (m : LoadedModule) (ask : Ask) (memory : Memory) :
    ∃ asks, ((ask.replyOf m).runFrom memory).2 = m.run memory asks := by
  cases ask with
  | type token => exact ⟨[.type token], by rw [Ask.replyOf, Action.runFrom_map]; rfl⟩
  | method token => exact ⟨[.method token], by rw [Ask.replyOf, Action.runFrom_map]; rfl⟩
  | source token =>
    simp only [Ask.replyOf, Action.runFrom_map]
    exact m.sourceOf_run token memory
  | origin token =>
    simp only [Ask.replyOf, Action.runFrom_map]
    exact m.sourceOf_run token memory
  | symbol token =>
    rw [Ask.replyOf, Action.runFrom_map]
    by_cases ht : token.tableId? = some .typeDef
    · exact ⟨[.type token], by rw [m.symbolOf_type ht, Action.runFrom_map]; rfl⟩
    · by_cases hm : token.tableId? = some .methodDef
      · simp only [m.symbolOf_method hm, Action.runFrom_map]
        exact m.sourceOf_run token memory
      · exact ⟨[], by rw [m.symbolOf_other ht hm]; rfl⟩
  | view ask => exact ⟨[ask], m.reply_step ask memory⟩

theorem turn_of {c : Context} {m : LoadedModule} {id : ModuleId} (hm : c.findModule id = some m) (s : Memories × Log)
    (t : Turn) : ∃ asks, (c.turn s t).1.of id = m.run (s.1.of id) asks := by
  have hw := reply_within c t.id (t.ask s.2)
  by_cases h : t.id = id
  · subst h
    obtain ⟨asks, hasks⟩ := replyOf_run m (t.ask s.2) (s.1.of t.id)
    exact ⟨asks, (hw.remembered m hm s.1).trans hasks⟩
  · exact ⟨[], hw.others s.1 id (Ne.symm h)⟩

/-- what a context remembers of a module is what its view remembers after some questions -/
theorem converse_of {c : Context} {m : LoadedModule} {id : ModuleId} (hm : c.findModule id = some m)
    (turns : List Turn) : ∃ asks, (c.converse turns).1.of id = m.after asks := by
  suffices hrun : ∀ (s : Memories × Log) (asks : List LoadedModule.Ask), s.1.of id = m.after asks →
      ∃ asks', (turns.foldl c.turn s).1.of id = m.after asks' from hrun (.empty, []) [] rfl
  induction turns with
  | nil => exact fun s asks hs => ⟨asks, hs⟩
  | cons t turns ih =>
    intro s asks hs
    obtain ⟨more, hmore⟩ := turn_of hm s t
    exact ih (c.turn s t) (asks ++ more) (by rw [hmore, hs, LoadedModule.after_append])

/-- what a context remembers of a module agrees with its tables -/
theorem converse_coherent {c : Context} {m : LoadedModule} {id : ModuleId} (hm : c.findModule id = some m)
    (turns : List Turn) : m.Coherent ((c.converse turns).1.of id) := by
  obtain ⟨asks, hasks⟩ := converse_of hm turns
  rw [hasks]
  exact m.after_coherent asks

/-! ## Conversations in step -/

/-- the question of a turn depends on what some modules told, and on nothing else -/
def Turn.Reads (p : ModuleId → Bool) (t : Turn) : Prop :=
  ∀ log log' : Log, log.filter (p ·.1) = log'.filter (p ·.1) → t.ask log = t.ask log'

/-- the same is remembered of some modules, and they told the same -/
structure InStep (p : ModuleId → Bool) (s s' : Memories × Log) : Prop where
  memories : ∀ id, p id → s.1.of id = s'.1.of id
  log : s.2.filter (p ·.1) = s'.2.filter (p ·.1)

variable {c' : Context} {p : ModuleId → Bool}

theorem turn_in_step (hc : ∀ id, p id → c.findModule id = c'.findModule id) {t : Turn} (ht : p t.id → t.Reads p)
    {s s' : Memories × Log} (h : InStep p s s') : InStep p (c.turn s t) (c'.turn s' t) := by
  have hw := reply_within c t.id (t.ask s.2)
  have hw' := reply_within c' t.id (t.ask s'.2)
  have hothers : ∀ id, p id → id ≠ t.id → (c.turn s t).1.of id = (c'.turn s' t).1.of id := fun id hid hne =>
    (hw.others s.1 id hne).trans ((h.memories id hid).trans (hw'.others s'.1 id hne).symm)
  by_cases hp : p t.id
  · -- the module that is asked is the same, and is asked the same
    have hask := ht hp _ _ h.log
    rw [← hask] at hw'
    obtain ⟨hanswer, hmemory⟩ := hw.agrees hw' (hc t.id hp) (h.memories t.id hp)
    constructor
    · intro id hid
      by_cases hne : id = t.id
      · subst hne
        simp only [turn, ← hask]
        exact hmemory
      · exact hothers id hid hne
    · simp only [turn, List.filter_append, h.log, ← hask, hanswer]
  · refine ⟨fun id hid => hothers id hid fun heq => hp (heq ▸ hid), ?_⟩
    simp only [turn, List.filter_append, List.filter_cons, List.filter_nil, hp, Bool.false_eq_true, if_false, h.log]

/-- a conversation about modules that two contexts share gets the same answers from them -/
theorem converse_in_step (hc : ∀ id, p id → c.findModule id = c'.findModule id) {turns : List Turn}
    (ht : ∀ t ∈ turns, p t.id → t.Reads p) : InStep p (c.converse turns) (c'.converse turns) := by
  suffices hrun : ∀ s s', InStep p s s' → InStep p (turns.foldl c.turn s) (turns.foldl c'.turn s') from
    hrun (.empty, []) (.empty, []) ⟨fun _ _ => rfl, rfl⟩
  induction turns with
  | nil => exact fun s s' h => h
  | cons t turns ih =>
    intro s s' h
    have hstep := turn_in_step hc (ht t List.mem_cons_self) h
    exact ih (fun t' ht' => ht t' (List.mem_cons_of_mem t ht')) _ _ hstep

end Context

end FrameSymbols
