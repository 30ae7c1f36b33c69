/-
Where the symbols that a client has come from.

A module that is asked about its own symbols tells symbols of its own (`replyOf_from`): they have rows of the module,
and so have the types around them. Taking a symbol apart and putting arguments into it keep this, so every symbol that a
client gets from a module, in whatever way, has a row of it (`Decoded.from`).
-/
import FrameSymbols.Proofs.Context.Conversation
import FrameSymbols.Proofs.Provenance.ByAttribute
import Mathlib.Logic.Relation

namespace FrameSymbols

/-- the type, all that enclose it and the definition it is linked to have rows of the module -/
inductive TypeSymbol.From (id : ModuleId) : TypeSymbol → Prop where
  | row {t : TypeSymbol} (origin : t.origin.module? = some id)
      (enclosing : ∀ outer, t.containing = some outer → From id outer) (linked : ∀ d, t.link = some d → From id d) :
      From id t

/-- the method, the type it belongs to and the definition it is linked to have rows of the module -/
inductive MethodSymbol.From (id : ModuleId) : MethodSymbol → Prop where
  | row {x : MethodSymbol} (origin : x.origin.module? = some id) (containing : x.containing.From id)
      (linked : ∀ d, x.link = some d → From id d) : From id x

/-- the symbol has a row of the module, and so have the types it belongs to -/
def Symbol.From (id : ModuleId) : Symbol → Prop
  | .type t => t.From id
  | .method x => x.From id

variable {id : ModuleId}

theorem TypeSymbol.From.origin {t : TypeSymbol} (h : t.From id) : t.origin.module? = some id := by
  cases h with
  | row origin _ _ => exact origin

theorem MethodSymbol.From.origin {x : MethodSymbol} (h : x.From id) : x.origin.module? = some id := by
  cases h with
  | row origin _ _ => exact origin

theorem MethodSymbol.From.containing {x : MethodSymbol} (h : x.From id) : x.containing.From id := by
  cases h with
  | row _ containing _ => exact containing

theorem Symbol.From.origin {s : Symbol} (h : s.From id) : s.origin.module? = some id := by
  cases s with
  | type t => exact TypeSymbol.From.origin h
  | method x => exact MethodSymbol.From.origin h

theorem TypeSymbol.From.enclosing {t outer : TypeSymbol} (h : t.From id) (ho : t.containing = some outer) :
    outer.From id := by
  cases h with
  | row _ enclosing _ => exact enclosing outer ho

theorem TypeSymbol.From.definition {t : TypeSymbol} (h : t.From id) : t.definition.From id := by
  cases hlink : t.link with
  | none => rwa [TypeSymbol.definition_of_unlinked hlink]
  | some d =>
    rw [TypeSymbol.definition_of_link hlink]
    cases h with
    | row _ _ linked => exact linked d hlink

theorem TypeSymbol.From.construct {t u : TypeSymbol} (h : t.From id) {args : List TypeSymbol}
    (hu : t.construct args = .ok u) : u.From id := by
  obtain ⟨-, rfl⟩ := TypeSymbol.construct_eq_ok_iff.1 hu
  refine .row h.definition.origin (fun _ => h.definition.enclosing) ?_
  rintro _ ⟨⟩
  exact h.definition

/-- an instance comes from where its definition does -/
theorem TypeSymbol.Rooted.from {t : TypeSymbol} (ht : t.Rooted) (h : t.definition.From id) : t.From id := by
  cases ht with
  | definition unlinked _ => rwa [TypeSymbol.definition_of_unlinked unlinked] at h
  | «instance» unlinked _ made =>
    rw [TypeSymbol.definition_of_construct made, TypeSymbol.definition_of_unlinked unlinked] at h
    exact h.construct made

theorem MethodSymbol.From.definition {x : MethodSymbol} (h : x.From id) : x.definition.From id := by
  cases hlink : x.link with
  | none => rwa [MethodSymbol.definition_of_unlinked hlink]
  | some d =>
    rw [MethodSymbol.definition_of_link hlink]
    cases h with
    | row _ _ linked => exact linked d hlink

theorem MethodSymbol.From.asMemberOf {x y : MethodSymbol} {t : TypeSymbol} (h : x.From id) (ht : t.From id)
    (hy : x.asMemberOf t = .ok y) : y.From id := by
  cases hi : t.isInstance with
  | false =>
    rw [MethodSymbol.eq_of_asMemberOf hy hi]
    exact h.definition
  | true =>
    refine .row ?_ ?_ ?_
    · rw [MethodSymbol.origin_asMemberOf hy]
      exact h.definition.origin
    · rw [(MethodSymbol.view_of_asMemberOf hy hi).2]
      exact ht
    · rw [MethodSymbol.link_of_asMemberOf hy hi]
      rintro _ ⟨⟩
      exact h.definition

namespace LoadedModule

variable {m : LoadedModule} {memory : Memory}

theorem Coherent.type_from (h : m.Coherent memory) :
    ∀ (t : TypeSymbol) {token : Token}, memory.type? token = some t → t.From m.id
  | ⟨name, space, flags, origin, params, none, args, link⟩, token, ht =>
    .row (by rw [h.type_origin ht]; rfl) nofun (by rw [(h.type_plain ht).1]; nofun)
  | ⟨name, space, flags, origin, params, some outer, args, link⟩, token, ht => by
    obtain ⟨encloser, hk⟩ := h.containing_remembered ht rfl
    refine .row (by rw [h.type_origin ht]; rfl) ?_ (by rw [(h.type_plain ht).1]; nofun)
    rintro _ ⟨⟩
    exact Coherent.type_from h outer hk

theorem Coherent.method_from (h : m.Coherent memory) {token : Token} {x : MethodSymbol}
    (hx : memory.method? token = some x) : x.From m.id := by
  obtain ⟨-, owner, hd⟩ := h.method_origin hx
  exact .row (h.method_module hx) (h.type_from _ hd) (by rw [h.method_link hx]; nofun)

theorem Knows.from (h : m.Coherent memory) {t : TypeSymbol} (ht : Knows memory t) : t.From m.id := by
  cases ht with
  | found rooted definition _ => exact rooted.from (h.type_from _ definition)

theorem ShownFor.from (h : m.Coherent memory) {t : TypeSymbol} (ht : t.From m.id) {row : UInt32} {y : MethodSymbol}
    (hy : ShownFor t memory row y) : y.From m.id := by
  obtain ⟨x, hx, hview⟩ := hy
  have hfrom := h.method_from hx
  rcases viewed_cases hview with ⟨-, hview⟩ | ⟨-, rfl⟩
  · exact hfrom.asMemberOf ht hview
  · exact hfrom

/-! ## Nothing else is told -/

open Query

theorem provenance_from (h : m.Coherent memory) {x : MethodSymbol} (hx : x.From m.id) :
    Sound m.Coherent memory (m.provenance x) (fun p _ => p.method.From m.id) := by
  refine (provenance_sound x h).imp ?_
  rintro p after hafter (hp | ⟨outer, row, houter, hshown⟩)
  · rw [hp]
    exact hx
  · exact hshown.from hafter (hx.containing.enclosing houter)

theorem sourceOf_from (h : m.Coherent memory) (token : Token) :
    Sound m.Coherent memory (m.sourceOf token) (fun p _ => p.method.From m.id) :=
  sound_bind (resolveMethod_sound token h) fun _ _ h1 _ hx => provenance_from h1 (h1.method_from hx)

theorem sourceMethod_from (h : m.Coherent memory) (token : Token) :
    Sound m.Coherent memory (Provenance.method <$> m.sourceOf token) (fun x _ => x.From m.id) :=
  sound_map (sourceOf_from h token) fun _ _ _ _ hp => hp

theorem forall_symbols_method {x : MethodSymbol} : (∀ s ∈ (Reply.method x).symbols, s.From id) ↔ x.From id := by
  simp [Reply.symbols, Symbol.From]

theorem Tells.from (h : m.Coherent memory) {ask : Ask} (hask : ∀ s ∈ ask.symbols, s.From m.id) {s : Symbol}
    (hs : Tells memory ask s) : s.From m.id := by
  cases hs with
  | type known => exact known.from h
  | method remembered => exact h.method_from remembered
  | given among => exact hask _ among
  | member searched shown =>
    refine shown.from h ?_
    rcases Ask.searched_cases searched with ht | ⟨x, hx, ho⟩
    · exact hask _ ht
    · exact (MethodSymbol.From.containing (hask _ hx)).enclosing ho

/-- a view that is asked about symbols of its module tells symbols of its module -/
theorem reply_from (h : m.Coherent memory) (ask : Ask) (hask : ∀ s ∈ ask.symbols, s.From m.id) :
    Sound m.Coherent memory (m.reply ask) (fun reply _ => ∀ s ∈ reply.symbols, s.From m.id) :=
  (reply_tells h ask).imp fun _ _ hafter htells s hs => (htells s hs).from hafter hask

theorem symbolOf_from (h : m.Coherent memory) (token : Token) :
    Sound m.Coherent memory (m.symbolOf token) (fun s _ => s.From m.id) := by
  by_cases ht : token.tableId? = some .typeDef
  · rw [m.symbolOf_type ht]
    exact sound_map (resolveType_sound token h) fun t _ h1 _ hk => h1.type_from t hk
  · by_cases hm : token.tableId? = some .methodDef
    · rw [m.symbolOf_method hm]
      exact sound_map (sourceMethod_from h token) fun _ _ _ _ hx => hx
    · rw [m.symbolOf_other ht hm]
      exact sound_throw _ h

end LoadedModule

namespace Context

open Query LoadedModule in
/-- a module that is asked about its own symbols tells symbols of its own -/
theorem replyOf_from {m : LoadedModule} {memory : Memory} (h : m.Coherent memory) (ask : Ask)
    (hask : ∀ s ∈ ask.symbols, s.From m.id) :
    Sound m.Coherent memory (ask.replyOf m) (fun reply _ => ∀ s ∈ reply.symbols, s.From m.id) := by
  cases ask with
  | type token => exact reply_from h (.type token) nofun
  | method token => exact reply_from h (.method token) nofun
  | source token =>
    exact sound_map (sourceMethod_from h token) fun _ _ _ _ hx => forall_symbols_method.2 hx
  | origin token => exact sound_map (sourceOf_from h token) fun _ _ _ _ hp => forall_symbols_method.2 hp
  | symbol token => exact sound_map (symbolOf_from h token) fun _ _ _ _ hs => List.forall_mem_singleton.2 hs
  | view ask => exact reply_from h ask hask

/-- a symbol that comes from a module: told by it in any conversation, when asked about such symbols; an argument in a
type that it found by name; or made from such symbols -/
inductive Decoded (c : Context) (id : ModuleId) : Symbol → Prop where
  | told {turns : List Turn} {ask : Ask} {reply : Reply} {s : Symbol} (asked : ∀ u ∈ ask.symbols, Decoded c id u)
      (answer : c.answer turns (c.reply id ask) = .ok reply) (among : s ∈ reply.symbols) : Decoded c id s
  | argument {turns : List Turn} {text : String} {t a : TypeSymbol}
      (answer : c.answer turns (c.reply id (.view (.typeForName text))) = .ok (.type t))
      (inside : Relation.TransGen (fun a t : TypeSymbol => a ∈ t.args) a t) : Decoded c id (.type a)
  | enclosing {t outer : TypeSymbol} (of : Decoded c id (.type t)) (around : t.containing = some outer) :
      Decoded c id (.type outer)
  | containing {x : MethodSymbol} (of : Decoded c id (.method x)) : Decoded c id (.type x.containing)
  | typeDefinition {t : TypeSymbol} (of : Decoded c id (.type t)) : Decoded c id (.type t.definition)
  | methodDefinition {x : MethodSymbol} (of : Decoded c id (.method x)) : Decoded c id (.method x.definition)
  | constructed {t u : TypeSymbol} {args : List TypeSymbol} (of : Decoded c id (.type t))
      (made : t.construct args = .ok u) : Decoded c id (.type u)
  | viewed {x y : MethodSymbol} {t : TypeSymbol} (of : Decoded c id (.method x)) (inside : Decoded c id (.type t))
      (made : x.asMemberOf t = .ok y) : Decoded c id (.method y)

variable {c : Context}

/-- what a module answers is what its view does -/
theorem answer_of_reply {turns : List Turn} {ask : Ask} {reply : Reply}
    (h : c.answer turns (c.reply id ask) = .ok reply) :
    ∃ m, c.findModule id = some m ∧ m.Coherent ((c.converse turns).1.of id) ∧
      ((ask.replyOf m).runFrom ((c.converse turns).1.of id)).1 = .ok reply := by
  have hw := reply_within c id ask
  unfold answer at h
  cases hm : c.findModule id with
  | none => rw [hw.missing hm] at h; cases h
  | some m =>
    rw [hw.answer m hm] at h
    exact ⟨m, rfl, converse_coherent hm turns, h⟩

/-- the arguments of a type that is known are known -/
theorem knows_argument {memory : Memory} {a t : TypeSymbol}
    (hinside : Relation.TransGen (fun a t : TypeSymbol => a ∈ t.args) a t) (ht : LoadedModule.Knows memory t) :
    LoadedModule.Knows memory a := by
  induction hinside using Relation.TransGen.head_induction_on with
  | single ha => exact ht.argument ha
  | head ha _ ih => exact ih.argument ha

open Query LoadedModule in
theorem argument_from {m : LoadedModule} {memory : Memory} (h : m.Coherent memory) {text : String} {a t : TypeSymbol}
    (ht : ((m.reply (.typeForName text)).runFrom memory).1 = .ok (.type t))
    (hinside : Relation.TransGen (fun a t : TypeSymbol => a ∈ t.args) a t) : a.From m.id := by
  have hsound : Sound m.Coherent memory (m.reply (.typeForName text))
      (fun reply after => ∀ t, reply = .type t → Knows after t) := by
    refine sound_map (typeForName_sound text h) fun u after _ _ hu t ht => ?_
    cases ht
    exact hu
  exact (knows_argument hinside (hsound.answers _ ht t rfl)).from hsound.keeps

/-- a symbol that comes from a module has a row of it -/
theorem Decoded.from {s : Symbol} (h : c.Decoded id s) : s.From id := by
  induction h with
  | told _ hanswer hs ih =>
    obtain ⟨m, hm, hcoherent, hreply⟩ := answer_of_reply hanswer
    have hid := id_of_findModule hm
    subst hid
    exact (replyOf_from hcoherent _ ih).answers _ hreply _ hs
  | argument hanswer hinside =>
    obtain ⟨m, hm, hcoherent, hreply⟩ := answer_of_reply hanswer
    have hid := id_of_findModule hm
    subst hid
    exact argument_from hcoherent hreply hinside
  | enclosing _ ho ih => exact TypeSymbol.From.enclosing ih ho
  | containing _ ih => exact MethodSymbol.From.containing ih
  | typeDefinition _ ih => exact TypeSymbol.From.definition ih
  | methodDefinition _ ih => exact MethodSymbol.From.definition ih
  | constructed _ hmade ih => exact TypeSymbol.From.construct ih hmade
  | viewed _ _ hmade ih iht => exact MethodSymbol.From.asMemberOf ih iht hmade

end Context

end FrameSymbols
