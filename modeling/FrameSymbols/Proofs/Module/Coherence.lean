/-
What a module remembers agrees with its tables.

Each remembered type has the fields of its row and is nested in what is remembered for the enclosing row (`TypeAt`);
each remembered method has the fields of its row and belongs to what is remembered for the row of its owner
(`MethodAt`). Every query keeps this (`step_coherent`), so it holds after every history (`after_coherent`), whatever
the reader answers.
-/
import FrameSymbols.Proofs.Module.History
import FrameSymbols.Proofs.Symbol.Instances
import FrameSymbols.Proofs.Token

namespace FrameSymbols.LoadedModule

/-! ## The invariant -/

/-- `t` has the fields of a row and is nested in what is remembered for the enclosing row -/
structure TypeAt (m : LoadedModule) (memory : Memory) (row : UInt32) (t : TypeSymbol) : Prop where
  fields : ∃ typeRow, m.reader.typeRow row = .ok typeRow ∧
    t = .ofRow typeRow (m.originOf (.ofParts .typeDef row)) t.containing
  outermost : m.reader.encloser row = none → t.containing = none
  nested : ∀ encloser, m.reader.encloser row = some encloser →
    encloser ≠ 0 ∧ encloser ≤ m.reader.rowCount .typeDef ∧
      ∃ outer, t.containing = some outer ∧ memory.type? (.ofParts .typeDef encloser) = some outer

/-- `x` has the fields of the row of a token and belongs to what is remembered for the row of the owner -/
structure MethodAt (m : LoadedModule) (memory : Memory) (token : Token) (x : MethodSymbol) : Prop where
  selected : m.checkToken token .methodDef .method = .ok ()
  fields : ∃ methodRow owner, m.reader.methodRow token.row = .ok methodRow ∧ m.reader.ownerOf token.row = .ok owner ∧
    memory.type? (.ofParts .typeDef owner) = some x.containing ∧ x = .ofRow methodRow (m.originOf token) x.containing

theorem originOf_inj {m : LoadedModule} {token other : Token} (h : m.originOf token = m.originOf other) :
    token = other := by
  rw [originOf, originOf, Origin.metadata.injEq] at h
  exact h.2

/-- the row of a symbol is that of its token -/
theorem ownRow_originOf (m : LoadedModule) (table : TableId) (row : UInt32) :
    m.ownRow (m.originOf (.ofParts table row)) table = .ok (Token.ofParts table row).row := by
  simp [ownRow, originOf]

/-- every remembered symbol agrees with the tables -/
structure Coherent (m : LoadedModule) (memory : Memory) : Prop where
  types : ∀ token t, memory.type? token = some t → ∃ row, token = .ofParts .typeDef row ∧ m.TypeAt memory row t
  methods : ∀ token x, memory.method? token = some x → m.MethodAt memory token x

theorem coherent_empty (m : LoadedModule) : m.Coherent .empty := by
  constructor <;> simp

theorem TypeAt.mono {m : LoadedModule} {before after : Memory} {row : UInt32} {t : TypeSymbol}
    (h : m.TypeAt before row t) (hg : before.Extends after) : m.TypeAt after row t := by
  refine ⟨h.fields, h.outermost, ?_⟩
  intro encloser he
  obtain ⟨h0, hle, outer, ho, hk⟩ := h.nested encloser he
  exact ⟨h0, hle, outer, ho, hg.types _ _ hk⟩

theorem MethodAt.mono {m : LoadedModule} {before after : Memory} {token : Token} {x : MethodSymbol}
    (h : m.MethodAt before token x) (hg : before.Extends after) : m.MethodAt after token x := by
  obtain ⟨methodRow, owner, h1, h2, h3, h4⟩ := h.fields
  exact ⟨h.selected, methodRow, owner, h1, h2, hg.types _ _ h3, h4⟩

/-- apart from the type it belongs to, a method has everything from its row -/
theorem MethodAt.eq_of_containing {m : LoadedModule} {before after : Memory} {token : Token} {x y : MethodSymbol}
    (hx : m.MethodAt before token x) (hy : m.MethodAt after token y) (hc : x.containing = y.containing) : x = y := by
  obtain ⟨row, owner, hr, -, -, hrow⟩ := hx.fields
  obtain ⟨row', owner', hr', -, -, hrow'⟩ := hy.fields
  rw [hr, Except.ok.injEq] at hr'
  rw [hrow, hrow', hr', hc]

/-- a method has the same symbol wherever its owner is remembered as the same type -/
theorem MethodAt.eq_of_owner {m : LoadedModule} {before after : Memory} {token : Token} {x y : MethodSymbol}
    {owner : UInt32} {containing : TypeSymbol} (hx : m.MethodAt before token x) (hy : m.MethodAt after token y)
    (ho : m.reader.ownerOf token.row = .ok owner) (hb : before.type? (.ofParts .typeDef owner) = some containing)
    (ha : after.type? (.ofParts .typeDef owner) = some containing) : x = y := by
  obtain ⟨-, owner1, -, ho1, hd1, -⟩ := hx.fields
  obtain ⟨-, owner2, -, ho2, hd2, -⟩ := hy.fields
  rw [ho, Except.ok.injEq] at ho1 ho2
  rw [← ho1, hb, Option.some.injEq] at hd1
  rw [← ho2, ha, Option.some.injEq] at hd2
  exact hx.eq_of_containing hy (by rw [← hd1, ← hd2])

theorem MethodAt.unique {m : LoadedModule} {memory : Memory} {token : Token} {x y : MethodSymbol}
    (hx : m.MethodAt memory token x) (hy : m.MethodAt memory token y) : x = y := by
  obtain ⟨-, owner, -, ho, hd, -⟩ := hx.fields
  exact hx.eq_of_owner hy ho hd hd

theorem TypeAt.origin {m : LoadedModule} {memory : Memory} {row : UInt32} {t : TypeSymbol} (h : m.TypeAt memory row t) :
    t.origin = m.originOf (.ofParts .typeDef row) := by
  obtain ⟨typeRow, -, ht⟩ := h.fields
  rw [ht]; rfl

theorem TypeAt.plain {m : LoadedModule} {memory : Memory} {row : UInt32} {t : TypeSymbol} (h : m.TypeAt memory row t) :
    t.link = none ∧ t.args = [] := by
  obtain ⟨typeRow, -, ht⟩ := h.fields
  rw [ht]
  exact ⟨rfl, rfl⟩

/-- a remembered type comes from the token it is remembered under -/
theorem Coherent.type_origin {m : LoadedModule} {memory : Memory} (h : m.Coherent memory) {token : Token}
    {t : TypeSymbol} (ht : memory.type? token = some t) : t.origin = m.originOf token := by
  obtain ⟨row, rfl, hat⟩ := h.types token t ht
  exact hat.origin

/-- a remembered type is a definition -/
theorem Coherent.type_plain {m : LoadedModule} {memory : Memory} (h : m.Coherent memory) {token : Token}
    {t : TypeSymbol} (ht : memory.type? token = some t) : t.link = none ∧ t.args = [] := by
  obtain ⟨row, rfl, hat⟩ := h.types token t ht
  exact hat.plain

theorem Coherent.type_isInstance {m : LoadedModule} {memory : Memory} (h : m.Coherent memory) {token : Token}
    {t : TypeSymbol} (ht : memory.type? token = some t) : t.isInstance = false :=
  TypeSymbol.isInstance_eq_false_iff.2 (h.type_plain ht).1

theorem Coherent.type_definition {m : LoadedModule} {memory : Memory} (h : m.Coherent memory) {token : Token}
    {t : TypeSymbol} (ht : memory.type? token = some t) : t.definition = t :=
  TypeSymbol.definition_of_unlinked (h.type_plain ht).1

/-- a remembered method belongs to what is remembered for its owner -/
theorem Coherent.method_owner {m : LoadedModule} {memory : Memory} (h : m.Coherent memory) {token : Token}
    {x : MethodSymbol} (hx : memory.method? token = some x) :
    ∃ owner, m.reader.ownerOf token.row = .ok owner ∧ memory.type? (.ofParts .typeDef owner) = some x.containing := by
  obtain ⟨-, owner, -, ho, hd, -⟩ := (h.methods token x hx).fields
  exact ⟨owner, ho, hd⟩

/-- a remembered method comes from its token and belongs to a remembered type -/
theorem Coherent.method_origin {m : LoadedModule} {memory : Memory} (h : m.Coherent memory) {token : Token}
    {x : MethodSymbol} (hx : memory.method? token = some x) :
    x.origin = m.originOf token ∧ ∃ owner, memory.type? (.ofParts .typeDef owner) = some x.containing := by
  obtain ⟨methodRow, -, -, -, -, hrow⟩ := (h.methods token x hx).fields
  obtain ⟨owner, -, hk⟩ := h.method_owner hx
  exact ⟨by rw [hrow]; rfl, owner, hk⟩

theorem Coherent.method_module {m : LoadedModule} {memory : Memory} (h : m.Coherent memory) {token : Token}
    {x : MethodSymbol} (hx : memory.method? token = some x) : x.origin.module? = some m.id := by
  rw [(h.method_origin hx).1]
  rfl

/-- a remembered method is a definition -/
theorem Coherent.method_link {m : LoadedModule} {memory : Memory} (h : m.Coherent memory) {token : Token}
    {x : MethodSymbol} (hx : memory.method? token = some x) : x.link = none := by
  obtain ⟨methodRow, owner, -, -, -, hrow⟩ := (h.methods token x hx).fields
  rw [hrow]
  rfl

theorem Coherent.method_definition {m : LoadedModule} {memory : Memory} (h : m.Coherent memory) {token : Token}
    {x : MethodSymbol} (hx : memory.method? token = some x) : x.definition = x :=
  MethodSymbol.definition_of_unlinked (h.method_link hx)

/-- the type that encloses a remembered type is remembered, for a row of the table -/
theorem Coherent.encloser_remembered {m : LoadedModule} {memory : Memory} (h : m.Coherent memory) {token : Token}
    {t outer : TypeSymbol} (ht : memory.type? token = some t) (ho : t.containing = some outer) :
    ∃ encloser, encloser ≠ 0 ∧ encloser ≤ m.reader.rowCount .typeDef ∧
      memory.type? (.ofParts .typeDef encloser) = some outer := by
  obtain ⟨row, -, hat⟩ := h.types token t ht
  cases he : m.reader.encloser row with
  | none => rw [hat.outermost he] at ho; cases ho
  | some encloser =>
    obtain ⟨h0, hle, outer', ho', hk⟩ := hat.nested encloser he
    rw [ho', Option.some.injEq] at ho
    rw [ho] at hk
    exact ⟨encloser, h0, hle, hk⟩

/-- the type that encloses a remembered type is remembered -/
theorem Coherent.containing_remembered {m : LoadedModule} {memory : Memory} (h : m.Coherent memory) {token : Token}
    {t outer : TypeSymbol} (ht : memory.type? token = some t) (ho : t.containing = some outer) :
    ∃ encloser, memory.type? (.ofParts .typeDef encloser) = some outer := by
  obtain ⟨encloser, -, -, hk⟩ := h.encloser_remembered ht ho
  exact ⟨encloser, hk⟩

theorem coherent_keepType {m : LoadedModule} {memory : Memory} (h : m.Coherent memory) {row : UInt32} {t : TypeSymbol}
    (ht : m.TypeAt memory row t) : m.Coherent (memory.keepType (.ofParts .typeDef row) t) := by
  have hg := memory.extends_keepType (.ofParts .typeDef row) t
  refine ⟨?_, fun token x hx => (h.methods token x hx).mono hg⟩
  intro token u hu
  rw [Memory.type?_keepType] at hu
  split at hu
  · next hk => cases hu; exact ⟨row, hk.1, ht.mono hg⟩
  · obtain ⟨row', hr, hat⟩ := h.types token u hu
    exact ⟨row', hr, hat.mono hg⟩

theorem coherent_keepMethod {m : LoadedModule} {memory : Memory} (h : m.Coherent memory) {token : Token}
    {x : MethodSymbol} (hx : m.MethodAt memory token x) : m.Coherent (memory.keepMethod token x) := by
  have hg := memory.extends_keepMethod token x
  constructor
  · intro other t ht
    obtain ⟨row, hr, hat⟩ := h.types other t ht
    exact ⟨row, hr, hat.mono hg⟩
  · intro other y hy
    rw [Memory.method?_keepMethod] at hy
    split at hy
    · next hk => cases hy; rw [hk.1]; exact hx.mono hg
    · exact (h.methods other y hy).mono hg

/-! ## What decoding a type does -/

theorem checkToken_eq_ok_iff {m : LoadedModule} {token : Token} {table : TableId} {kind : SymbolKind} :
    m.checkToken token table kind = .ok () ↔
      token.selects table = true ∧ token.row ≠ 0 ∧ token.row ≤ m.reader.rowCount table := by
  unfold checkToken
  split
  · next h => simp at h; simp [h]
  · next h =>
    simp only [Bool.not_eq_true', Bool.not_eq_false] at h
    simp only [h, true_and]
    split
    · next hc => simp only [reduceCtorEq, false_iff, not_and, UInt32.not_le]; tauto
    · next hc => rw [not_or, UInt32.not_lt] at hc; simpa using hc

theorem runFrom_keepType (token : Token) (t : TypeSymbol) (memory : Memory) :
    (keepType token t).runFrom memory = match memory.type? token with
      | some known => (.ok known, memory)
      | none => (.ok t, memory.keepType token t) := by
  simp only [keepType, Action.runFrom_bind, Action.runFrom_get]
  cases memory.type? token with
  | some known => rfl
  | none => rfl

/-- one level of decoding: what is remembered, the row alone, or the row inside the enclosing type -/
theorem runFrom_typeSymbol_succ (m : LoadedModule) (levels : Nat) (row : UInt32) (memory : Memory) :
    (m.typeSymbol (levels + 1) row).runFrom memory =
      match memory.type? (.ofParts .typeDef row) with
      | some known => (.ok known, memory)
      | none => match m.reader.typeRow row with
        | .error e => (.error e, memory)
        | .ok typeRow => match m.reader.encloser row with
          | none => (keepType (.ofParts .typeDef row)
              (.ofRow typeRow (m.originOf (.ofParts .typeDef row)) none)).runFrom memory
          | some encloser =>
            if encloser = 0 ∨ m.reader.rowCount .typeDef < encloser then
              (.error (.malformed (.encloserMissing row encloser)), memory)
            else match (m.typeSymbol levels encloser).runFrom memory with
              | (.ok outer, memory') => (keepType (.ofParts .typeDef row)
                  (.ofRow typeRow (m.originOf (.ofParts .typeDef row)) (some outer))).runFrom memory'
              | (.error e, memory') => (.error e, memory') := by
  simp only [typeSymbol, Action.runFrom_bind, Action.runFrom_get]
  cases memory.type? (.ofParts .typeDef row) with
  | some known => rfl
  | none =>
    simp only [Action.runFrom_bind, Action.runFrom_lift]
    cases m.reader.typeRow row with
    | error e => rfl
    | ok typeRow =>
      cases m.reader.encloser row with
      | none => rfl
      | some encloser =>
        simp only
        split
        · rfl
        · rw [Action.runFrom_bind]
          rcases (m.typeSymbol levels encloser).runFrom memory with ⟨_ | _, _⟩ <;> rfl

theorem runFrom_resolveType (m : LoadedModule) (token : Token) (memory : Memory) :
    (m.resolveType token).runFrom memory = match m.checkToken token .typeDef .type with
      | .error e => (.error e, memory)
      | .ok _ => (m.typeOfRow token.row).runFrom memory := by
  unfold resolveType
  rw [Action.runFrom_bind, Action.runFrom_lift]
  cases m.checkToken token .typeDef .type <;> rfl

/-! ## Every query keeps the invariant -/

theorem mem_methodsAmong {symbols : List Symbol} {x : MethodSymbol} : x ∈ methodsAmong symbols ↔ .method x ∈ symbols := by
  unfold methodsAmong
  rw [List.mem_filterMap]
  constructor
  · rintro ⟨t | y, hs, hx⟩
    · cases hx
    · cases hx
      exact hs
  · exact fun hx => ⟨.method x, hx, rfl⟩

theorem methodsAmong_append (methods : List MethodSymbol) (nested : List TypeSymbol) :
    methodsAmong (methods.map .method ++ nested.map .type) = methods := by
  simp [methodsAmong, List.filterMap_append, List.filterMap_map]

open Query

variable {m : LoadedModule} {memory : Memory}

theorem keepType_sound (h : m.Coherent memory) {row : UInt32} {t : TypeSymbol} (ht : m.TypeAt memory row t) :
    Sound m.Coherent memory (keepType (.ofParts .typeDef row) t)
      (fun u after => after.type? (.ofParts .typeDef row) = some u) := by
  have hrun := runFrom_keepType (.ofParts .typeDef row) t memory
  cases hk : memory.type? (.ofParts .typeDef row) with
  | some known =>
    rw [hk] at hrun
    constructor
    · rw [hrun]; exact h
    · rw [hrun]; exact Memory.Extends.refl memory
    · rw [hrun]; intro u hu; cases hu; exact hk
  | none =>
    rw [hk] at hrun
    constructor
    · rw [hrun]; exact coherent_keepType h ht
    · rw [hrun]; exact memory.extends_keepType _ t
    · rw [hrun]
      intro u hu
      cases hu
      simp [Memory.type?_keepType, hk]

/-- a decoded type is remembered for its row -/
theorem typeSymbol_sound (levels : Nat) (row : UInt32) (h : m.Coherent memory) :
    Sound m.Coherent memory (m.typeSymbol levels row)
      (fun t after => after.type? (.ofParts .typeDef row) = some t) := by
  induction levels generalizing row memory with
  | zero => exact sound_throw _ h
  | succ levels ih =>
    unfold typeSymbol
    apply sound_bind (sound_get h)
    intro known memory' hi hg hm
    subst hm
    cases hk : known.type? (.ofParts .typeDef row) with
    | some t => exact sound_pure hi hk
    | none =>
      apply sound_bind (sound_lift _ hi)
      intro typeRow memory1 h1 hg1 hr
      cases he : m.reader.encloser row with
      | none =>
        exact keepType_sound h1 ⟨⟨typeRow, hr, rfl⟩, fun _ => rfl, fun e h => by rw [he] at h; cases h⟩
      | some encloser =>
        simp only
        split
        · exact sound_throw _ h1
        · next hrange =>
          apply sound_bind (ih encloser h1)
          intro outer memory2 h2 hg2 ho
          rw [not_or] at hrange
          -- the enclosing type is remembered by now, before this one is kept
          apply keepType_sound h2
          refine ⟨⟨typeRow, hr, rfl⟩, ?_, ?_⟩
          · intro hnone
            rw [he] at hnone
            cases hnone
          · intro other hother
            rw [he, Option.some.injEq] at hother
            subst hother
            exact ⟨hrange.1, UInt32.not_lt.1 hrange.2, outer, rfl, ho⟩

theorem typeOfRow_sound (row : UInt32) (h : m.Coherent memory) :
    Sound m.Coherent memory (m.typeOfRow row) (fun t after => after.type? (.ofParts .typeDef row) = some t) :=
  typeSymbol_sound _ row h

/-- a method is remembered, also if decoding its type has remembered it already -/
theorem keepMethod_sound (h : m.Coherent memory) {token : Token} {x : MethodSymbol} (hx : m.MethodAt memory token x) :
    Sound m.Coherent memory (do modify (·.keepMethod token x); return x)
      (fun y after => after.method? token = some y) := by
  refine ⟨coherent_keepMethod h hx, memory.extends_keepMethod token x, ?_⟩
  intro y hy
  cases hy
  show (memory.keepMethod token x).method? token = some x
  rw [Memory.method?_keepMethod]
  cases hk : memory.method? token with
  | none => simp
  | some y => simp [(h.methods token y hk).unique hx]

theorem resolveType_sound (token : Token) (h : m.Coherent memory) :
    Sound m.Coherent memory (m.resolveType token)
      (fun t after => after.type? (.ofParts .typeDef token.row) = some t) :=
  sound_bind (sound_lift _ h) fun _ _ hi _ _ => typeOfRow_sound token.row hi

/-- a decoded method is remembered for its token -/
theorem resolveMethod_sound (token : Token) (h : m.Coherent memory) :
    Sound m.Coherent memory (m.resolveMethod token) (fun x after => after.method? token = some x) := by
  unfold resolveMethod
  apply sound_bind (sound_lift _ h)
  intro _ memory0 h0 _ hcheck
  apply sound_bind (sound_get h0)
  intro known memory1 h1 hg1 hm
  subst hm
  cases hk : known.method? token with
  | some x => exact sound_pure h1 hk
  | none =>
    apply sound_bind (sound_lift _ h1)
    intro owner memory2 h2 hg2 howner
    apply sound_bind (typeOfRow_sound owner h2)
    intro declaring memory3 h3 hg3 hd
    apply sound_bind (sound_lift _ h3)
    intro methodRow memory4 h4 hg4 hr
    exact keepMethod_sound h4 ⟨hcheck, methodRow, owner, hr, howner, hg4.types _ _ hd, rfl⟩

/-! ## Members -/

def rowsFrom (row : UInt32) : Nat → List UInt32
  | 0 => []
  | count + 1 => row :: rowsFrom (row + 1) count

/-- whether the method of a row has the name and is imported -/
def showsMethod (m : LoadedModule) (name : String) (row : UInt32) : Bool :=
  match m.reader.methodRow row with
  | .ok methodRow => methodRow.name = name && MethodFlags.isImported methodRow.flags m.importLevel
  | .error _ => false

/-- the methods of an instance are viewed as its members, and those of a definition as they are -/
def viewedAs (t : TypeSymbol) (x : MethodSymbol) : Except Error MethodSymbol :=
  if t.isInstance then x.asMemberOf t else .ok x

theorem viewed_cases {t : TypeSymbol} {x y : MethodSymbol} (h : viewedAs t x = .ok y) :
    t.isInstance = true ∧ x.asMemberOf t = .ok y ∨ t.isInstance = false ∧ y = x := by
  unfold viewedAs at h
  split at h
  · next hi => exact .inl ⟨hi, h⟩
  · next hi => cases h; exact .inr ⟨Bool.not_eq_true _ ▸ hi, rfl⟩

/-- `y` is the remembered method of a row, as a member of `t` -/
def ShownFor (t : TypeSymbol) (memory : Memory) (row : UInt32) (y : MethodSymbol) : Prop :=
  ∃ x, memory.method? (.ofParts .methodDef row) = some x ∧ viewedAs t x = .ok y

theorem ShownFor.mono {t : TypeSymbol} {before after : Memory} {row : UInt32} {y : MethodSymbol}
    (h : ShownFor t before row y) (hg : before.Extends after) : ShownFor t after row y := by
  obtain ⟨x, hx, hy⟩ := h
  exact ⟨x, hg.methods _ _ hx, hy⟩

/-- what is shown for rows is shown for one of them -/
theorem shown_of_mem {α : Type} {shown : UInt32 → α → Prop} {rows : List UInt32} {found : List α}
    (h : List.Forall₂ shown rows found) {y : α} (hy : y ∈ found) : ∃ row, shown row y := by
  induction h with
  | nil => cases hy
  | cons hrow _ ih =>
    rcases List.mem_cons.1 hy with rfl | hy
    · exact ⟨_, hrow⟩
    · exact ih hy

theorem methodNamed_sound (t : TypeSymbol) (name : String) (row : UInt32) (h : m.Coherent memory) :
    Sound m.Coherent memory (m.methodNamed t name row) (fun found after =>
      if m.showsMethod name row then ∃ y, ShownFor t after row y ∧ found = some y else found = none) := by
  unfold methodNamed
  apply sound_bind (sound_lift _ h)
  intro methodRow memory1 h1 _ hr
  split
  · next hc =>
    have hshow : m.showsMethod name row = true := by simp [showsMethod, hr, hc]
    simp only [hshow, if_true]
    apply sound_bind (resolveMethod_sound _ h1)
    intro x memory2 h2 _ hx
    split
    · next ht =>
      apply sound_map (sound_lift (x.asMemberOf t) h2)
      intro y memory3 _ hg hy
      exact ⟨y, ⟨x, hg.methods _ _ hx, by rw [viewedAs, if_pos ht, hy]⟩, rfl⟩
    · next ht =>
      exact sound_pure h2 ⟨x, ⟨x, hx, by rw [viewedAs, if_neg ht]⟩, rfl⟩
  · next hc =>
    have hshow : m.showsMethod name row = false := by
      rw [← Bool.not_eq_true, showsMethod, hr]
      simpa using hc
    exact sound_pure h1 (by simp [hshow])

theorem methodsNamed_sound (t : TypeSymbol) (name : String) (row : UInt32) (count : Nat) (h : m.Coherent memory) :
    Sound m.Coherent memory (m.methodsNamed t name row count) (fun found after =>
      List.Forall₂ (ShownFor t after) ((rowsFrom row count).filter (m.showsMethod name)) found) := by
  induction count generalizing row memory with
  | zero => exact sound_pure h .nil
  | succ count ih =>
    unfold methodsNamed
    apply sound_bind (methodNamed_sound t name row h)
    intro found memory1 h1 _ hf
    apply sound_bind (ih (row + 1) h1)
    intro more memory2 h2 hg2 hmore
    apply sound_pure h2
    rw [rowsFrom, List.filter_cons]
    split at hf
    · next hs =>
      obtain ⟨y, hy, rfl⟩ := hf
      rw [if_pos hs]
      exact .cons (hy.mono hg2) hmore
    · next hs =>
      rw [if_neg hs, hf]
      exact hmore

def importsType (m : LoadedModule) (row : UInt32) : Bool :=
  match m.reader.typeRow row with
  | .ok typeRow => TypeFlags.isImported typeRow.flags m.importLevel
  | .error _ => false

theorem nestedNamed_sound (name : String) (row : UInt32) (h : m.Coherent memory) :
    Sound m.Coherent memory (m.nestedNamed name row) (fun found after =>
      if m.importsType row then ∃ u, after.type? (.ofParts .typeDef row) = some u ∧
        found = if u.name = name then some u else none
      else found = none) := by
  unfold nestedNamed
  apply sound_bind (sound_lift _ h)
  intro typeRow memory1 h1 _ hr
  have himports : m.importsType row = TypeFlags.isImported typeRow.flags m.importLevel := by simp [importsType, hr]
  rw [himports]
  split
  · apply sound_bind (typeOfRow_sound row h1)
    intro u memory2 h2 _ hu
    exact sound_pure h2 ⟨u, hu, rfl⟩
  · exact sound_pure h1 rfl

theorem nestedTypesNamed_sound (name : String) (rows : List UInt32) (h : m.Coherent memory) :
    Sound m.Coherent memory (m.nestedTypesNamed name rows) (fun found after =>
      ∃ us, List.Forall₂ (fun row u => after.type? (.ofParts .typeDef row) = some u) (rows.filter m.importsType) us ∧
        found = us.filter (·.name = name)) := by
  induction rows generalizing memory with
  | nil => exact sound_pure h ⟨[], .nil, rfl⟩
  | cons row rows ih =>
    unfold nestedTypesNamed
    apply sound_bind (nestedNamed_sound name row h)
    intro nested memory1 h1 _ hn
    apply sound_bind (ih h1)
    intro more memory2 h2 hg2 hmore
    apply sound_pure h2
    obtain ⟨us, hus, rfl⟩ := hmore
    rw [List.filter_cons]
    split at hn
    · next hs =>
      obtain ⟨u, hu, rfl⟩ := hn
      rw [if_pos hs]
      refine ⟨u :: us, .cons (hg2.types _ _ hu) hus, ?_⟩
      by_cases hname : u.name = name
      · simp [hname]
      · simp [hname]
    · next hs =>
      rw [if_neg hs, hn]
      exact ⟨us, hus, rfl⟩

/-- the members of a type are the methods of its run that have the name and are imported, in row order, and behind them
those of the imported types nested in it that have the name -/
theorem members_found (t : TypeSymbol) (name : String) (h : m.Coherent memory) :
    Sound m.Coherent memory (m.members t name) (fun found after =>
      ∃ row run methods us, m.ownRow t.origin .typeDef = .ok row ∧ m.reader.methodsOf row = .ok run ∧
        found = methods.map .method ++ (us.filter (·.name = name)).map .type ∧
        List.Forall₂ (ShownFor t after) ((rowsFrom run.start run.size).filter (m.showsMethod name)) methods ∧
        List.Forall₂ (fun row u => after.type? (.ofParts .typeDef row) = some u)
          ((m.reader.nestedIn row).filter m.importsType) us) := by
  unfold members
  apply sound_bind (sound_lift _ h)
  intro row memory1 h1 _ hrow
  apply sound_bind (sound_lift _ h1)
  intro run memory2 h2 _ hrun
  apply sound_bind (methodsNamed_sound t name run.start run.size h2)
  intro methods memory3 h3 _ hm
  apply sound_bind (nestedTypesNamed_sound name _ h3)
  rintro _ memory4 h4 hg4 ⟨us, hus, rfl⟩
  exact sound_pure h4 ⟨row, run, methods, us, hrow, hrun, rfl, hm.imp fun _ _ hs => hs.mono hg4, hus⟩

/-- the methods among the members of a type are those of its run that have the name and are imported, in row order, and
the types among them are remembered -/
theorem members_sound (t : TypeSymbol) (name : String) (h : m.Coherent memory) :
    Sound m.Coherent memory (m.members t name) (fun found after =>
      ∃ row run, m.ownRow t.origin .typeDef = .ok row ∧ m.reader.methodsOf row = .ok run ∧
        List.Forall₂ (ShownFor t after) ((rowsFrom run.start run.size).filter (m.showsMethod name))
          (methodsAmong found) ∧
        ∀ u, .type u ∈ found → ∃ row, after.type? (.ofParts .typeDef row) = some u) := by
  refine (members_found t name h).imp ?_
  rintro _ after _ ⟨row, run, methods, us, hrow, hrun, rfl, hm, hus⟩
  refine ⟨row, run, hrow, hrun, by rw [methodsAmong_append]; exact hm, ?_⟩
  intro u hu
  have hnested : u ∈ us ∧ u.name = name := by simpa using hu
  exact shown_of_mem hus hnested.1

/-! ## Types by name, and the origins of methods -/

/-- a remembered type, or an instance that was made of one and whose arguments are such types again -/
inductive Knows (memory : Memory) : TypeSymbol → Prop where
  | found {token : Token} {t : TypeSymbol} (rooted : t.Rooted) (definition : memory.type? token = some t.definition)
      (args : ∀ a ∈ t.args, Knows memory a) : Knows memory t

theorem Knows.mono {before after : Memory} {t : TypeSymbol} (h : Knows before t) (hg : before.Extends after) :
    Knows after t := by
  induction h with
  | found rooted definition _ ih => exact .found rooted (hg.types _ _ definition) ih

/-- what is remembered is a definition -/
theorem Coherent.knows (h : m.Coherent memory) {token : Token} {t : TypeSymbol} (ht : memory.type? token = some t) :
    Knows memory t := by
  obtain ⟨hlink, hargs⟩ := h.type_plain ht
  have hd : memory.type? token = some t.definition := by rw [h.type_definition ht, ht]
  exact .found (.definition hlink hargs) hd fun a hin => by rw [hargs] at hin; cases hin

theorem Knows.rooted {t : TypeSymbol} (h : Knows memory t) : t.Rooted := by
  cases h with
  | found rooted _ _ => exact rooted

theorem Knows.definition (h : m.Coherent memory) {t : TypeSymbol} (ht : Knows memory t) :
    Knows memory t.definition := by
  cases ht with
  | found _ remembered _ => exact h.knows remembered

theorem Knows.argument {t a : TypeSymbol} (h : Knows memory t) (ha : a ∈ t.args) : Knows memory a := by
  cases h with
  | found _ _ args => exact args a ha

theorem Knows.construct {t u : TypeSymbol} (h : Knows memory t) {args : List TypeSymbol}
    (hargs : ∀ a ∈ args, Knows memory a) (hu : t.construct args = .ok u) : Knows memory u := by
  cases h with
  | found rooted remembered _ =>
    rw [← TypeSymbol.definition_of_construct hu] at remembered
    exact .found (rooted.construct hu) remembered (by rw [TypeSymbol.args_of_construct hu]; exact hargs)

theorem Knows.enclosing (h : m.Coherent memory) {t outer : TypeSymbol} (ht : Knows memory t)
    (ho : t.containing = some outer) : Knows memory outer := by
  cases ht with
  | found rooted remembered _ =>
    obtain ⟨encloser, hk⟩ := h.containing_remembered remembered (by rw [rooted.containing_definition, ho])
    exact h.knows hk

/-- putting arguments for the parameters of a definition makes an instance, or leaves the definition as it is -/
theorem Coherent.knows_construct (h : m.Coherent memory) {token : Token} {t : TypeSymbol}
    (ht : memory.type? token = some t) {args : List TypeSymbol} (hargs : ∀ a ∈ args, Knows memory a) :
    Knows memory ((t.construct args).toOption.getD t) := by
  cases hu : t.construct args with
  | error e => exact h.knows ht
  | ok u => exact (h.knows ht).construct hargs hu

mutual

/-- a type that is found by name is known afterwards -/
theorem typeNamed_sound {memory : Memory} (n : TypeName) (h : m.Coherent memory) :
    Sound m.Coherent memory (m.typeNamed n) (fun found after => ∀ t, found = some t → Knows after t) := by
  obtain ⟨space, top, nested, args, suffixes, assembly⟩ := n
  unfold typeNamed
  split
  · exact sound_pure h fun t ht => by cases ht
  · refine sound_bind (typeOfRow_sound _ h) ?_
    intro definition memory1 h1 _ hd
    cases args with
    | nil =>
      apply sound_pure h1
      rintro t ⟨⟩
      exact h1.knows hd
    | cons arg more =>
      apply sound_bind (typesNamed_sound (arg :: more) h1)
      intro found memory2 h2 hg2 hargs
      have hd2 := hg2.types _ _ hd
      split
      · apply sound_pure h2
        rintro t ⟨⟩
        exact h2.knows hd2
      · apply sound_pure h2
        rintro t ⟨⟩
        exact h2.knows_construct hd2 (hargs _ rfl)

theorem typesNamed_sound {memory : Memory} (ns : List TypeName) (h : m.Coherent memory) :
    Sound m.Coherent memory (m.typesNamed ns)
      (fun found after => ∀ ts, found = some ts → ∀ t ∈ ts, Knows after t) := by
  match ns with
  | [] =>
    apply sound_pure h
    rintro ts ⟨⟩ t ht
    cases ht
  | n :: ns =>
    unfold typesNamed
    apply sound_bind (sound_toOption (typeNamed_sound n h))
    intro found memory1 h1 _ hfound
    split
    · next t =>
      apply sound_map (typesNamed_sound ns h1)
      intro more memory2 _ hg2 hmore ts hts
      obtain ⟨rest, hrest, rfl⟩ := Option.map_eq_some_iff.1 hts
      exact List.forall_mem_cons.2 ⟨(hfound _ rfl t rfl).mono hg2, hmore rest hrest⟩
    · exact sound_pure h1 fun ts hts => by cases hts

end

theorem typeForName_sound (text : String) (h : m.Coherent memory) :
    Sound m.Coherent memory (m.typeForName text) (fun t after => Knows after t) := by
  unfold typeForName
  apply sound_bind (sound_lift _ h)
  intro n memory1 h1 _ _
  apply sound_bind (typeNamed_sound n h1)
  intro found memory2 h2 _ hfound
  split
  · exact sound_pure h2 (hfound _ rfl)
  · exact sound_throw _ h2

theorem declares_sound (stateMachine : TypeSymbol) (method : MethodSymbol) (h : m.Coherent memory) :
    Sound m.Coherent memory (m.declares stateMachine method) (fun _ _ => True) := by
  unfold declares
  split
  · exact sound_pure h trivial
  · refine sound_bind (sound_toOption (typeForName_sound _ h)) ?_
    intro found memory1 h1 _ _
    split <;> exact sound_pure h1 trivial

theorem declaring_sound (stateMachine : TypeSymbol) (methods : List MethodSymbol) (h : m.Coherent memory) :
    Sound m.Coherent memory (m.declaring stateMachine methods) (fun proven _ => proven.Sublist methods) := by
  induction methods generalizing memory with
  | nil => exact sound_pure h .slnil
  | cons method methods ih =>
    unfold declaring
    apply sound_bind (declares_sound stateMachine method h)
    intro proven memory1 h1 _ _
    apply sound_bind (ih h1)
    intro more memory2 h2 _ hmore
    apply sound_pure h2
    split
    · exact hmore.cons_cons method
    · exact hmore.cons method

/-- a method comes from itself, or from a member of the type around its own -/
theorem provenance_sound (method : MethodSymbol) (h : m.Coherent memory) :
    Sound m.Coherent memory (m.provenance method) (fun p after => p.method = method ∨
      ∃ outer row, method.containing.containing = some outer ∧ ShownFor outer after row p.method) := by
  unfold provenance
  split
  · exact sound_throw _ h
  · dsimp only
    split
    · exact sound_pure h (.inl rfl)
    · split
      · exact sound_pure h (.inl rfl)
      · next outer houter =>
        refine sound_bind (sound_toOption (members_sound _ _ h)) ?_
        intro found memory1 h1 _ hfound
        split
        · exact sound_pure h1 (.inl rfl)
        · next symbols =>
          obtain ⟨row, run, -, -, hshown, -⟩ := hfound symbols rfl
          apply sound_bind (declaring_sound _ _ h1)
          intro proven memory2 h2 hg2 hsub
          apply sound_pure h2
          rcases proven with _ | ⟨y, more⟩
          · exact .inl rfl
          · right
            obtain ⟨row', hy⟩ := shown_of_mem hshown (hsub.subset List.mem_cons_self)
            have hmethod : (Provenance.ofProven method (y :: more)).method = y := by cases more <;> rfl
            exact ⟨outer, row', houter, by rw [hmethod]; exact hy.mono hg2⟩

/-! ## Histories -/

theorem step_coherent (ask : Ask) (h : m.Coherent memory) :
    m.Coherent (m.step memory ask) ∧ memory.Extends (m.step memory ask) := by
  cases ask with
  | type token => exact ⟨(resolveType_sound token h).keeps, (resolveType_sound token h).grows⟩
  | method token => exact ⟨(resolveMethod_sound token h).keeps, (resolveMethod_sound token h).grows⟩
  | members t name => exact ⟨(members_sound t name h).keeps, (members_sound t name h).grows⟩
  | typeForName text => exact ⟨(typeForName_sound text h).keeps, (typeForName_sound text h).grows⟩
  | argument method a => exact ⟨h, Memory.Extends.refl memory⟩
  | provenance method => exact ⟨(provenance_sound method h).keeps, (provenance_sound method h).grows⟩

theorem run_coherent (asks : List Ask) (h : m.Coherent memory) :
    m.Coherent (m.run memory asks) ∧ memory.Extends (m.run memory asks) := by
  induction asks generalizing memory with
  | nil => exact ⟨h, Memory.Extends.refl memory⟩
  | cons ask asks ih =>
    obtain ⟨h1, hg1⟩ := step_coherent ask h
    obtain ⟨h2, hg2⟩ := ih h1
    exact ⟨h2, hg1.trans hg2⟩

theorem after_coherent (m : LoadedModule) (asks : List Ask) : m.Coherent (m.after asks) :=
  (run_coherent asks m.coherent_empty).1

end FrameSymbols.LoadedModule
