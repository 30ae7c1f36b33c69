/-
What the members of a type are.

The methods of a name are the ones that the type owns, no matter what is remembered (`mem_methodRows`): the run of the
type has them in row order. The types of a name are those in the list of nested types that are imported and have the
name without an arity marker (`nested_shown`). A method is shown as what its row resolves to, for an instance as a member
of that instance (`ShownFor.member`). `members_exact` puts this together.
-/
import FrameSymbols.Proofs.Module.NamedTypes
import FrameSymbols.Proofs.Module.Transparency
import FrameSymbols.Proofs.Tables.Runs

namespace FrameSymbols

/-- rows of types with the same token have the same name, which they do where every row fits into a token -/
def Reader.NamedByToken (reader : Reader) : Prop :=
  ∀ row other typeRow otherRow, reader.typeRow row = .ok typeRow → reader.typeRow other = .ok otherRow →
    Token.ofParts .typeDef row = .ofParts .typeDef other → typeRow.name = otherRow.name

theorem Reader.BoundedTypes.namedByToken {reader : Reader} (h : reader.BoundedTypes) : reader.NamedByToken := by
  intro row other typeRow otherRow hr ho htoken
  have hrow := UInt32.le_trans (h.typeRow row typeRow hr).2 h.types
  have hother := UInt32.le_trans (h.typeRow other otherRow ho).2 h.types
  rw [Token.ofParts_inj hrow hother htoken, ho, Except.ok.injEq] at hr
  rw [hr]

namespace LoadedModule

variable {m : LoadedModule} {memory : Memory}

/-! ## Methods -/

/-- a list of methods that can be told is that of a type of the table -/
theorem row_of_methodsOf (hb : m.reader.BoundedTypes) (hruns : m.reader.methodsOf = m.reader.methodRun) {row : UInt32}
    {run : RowRange} (h : m.reader.methodsOf row = .ok run) : row ≠ 0 ∧ row ≤ m.reader.rowCount .typeDef := by
  rw [hruns] at h
  obtain ⟨⟨typeRow, htr, -⟩, -⟩ := Tables.methodRun_bounds h
  exact hb.typeRow row typeRow htr

/-- the methods of a run that are shown are those that the type owns, in row order -/
theorem mem_methodRows (hb : m.reader.Bounded) (hord : m.reader.toTables.Ordered)
    (hruns : m.reader.methodsOf = m.reader.methodRun) (howners : m.reader.ownerOf = m.reader.owner) {row : UInt32}
    {run : RowRange} (hrun : m.reader.methodsOf row = .ok run) (name : String) :
    ((rowsFrom run.start run.size).filter (m.showsMethod name)).Pairwise (· < ·) ∧
      ∀ method, method ∈ (rowsFrom run.start run.size).filter (m.showsMethod name) ↔
        m.reader.ownerOf method = .ok row ∧ m.showsMethod name method = true := by
  obtain ⟨h0, hle⟩ := row_of_methodsOf hb.boundedTypes hruns hrun
  obtain ⟨run', hrun', hpairwise, -, hmem⟩ := methodRun_rows hord hb.methods h0 hle
  rw [hruns, hrun', Except.ok.injEq] at hrun
  subst hrun
  refine ⟨hpairwise.filter _, ?_⟩
  intro method
  rw [List.mem_filter, howners]
  refine and_congr_left fun hshown => hmem method ?_
  -- a run may start at row 0, which is no method
  rintro rfl
  unfold showsMethod at hshown
  cases hr : m.reader.methodRow 0 with
  | error e => rw [hr] at hshown; cases hshown
  | ok methodRow => exact (hb.methodRow 0 methodRow hr).1 rfl

/-- `y` is what the row of a method resolves to, as a member of `t` -/
structure MemberAt (m : LoadedModule) (memory : Memory) (t : TypeSymbol) (row : UInt32) (y : MethodSymbol) : Prop where
  resolves : ((m.resolveMethod (.ofParts .methodDef row)).runFrom memory).1 = .ok y.definition
  ofInstance : t.isInstance = true → y.containing = t
  ofDefinition : t.isInstance = false → y = y.definition ∧ (t.args = [] → y.containing.same t = true)
  /-- a definition that was told by the module is the type of its methods, and not only the same as that -/
  told : (∃ token, memory.type? token = some t.definition) → y.containing = t

/-- what is shown for the method of a row is a member of the type that owns it -/
theorem ShownFor.member (h : m.Coherent memory) {t : TypeSymbol} {row method : UInt32} {y : MethodSymbol}
    (ht : t.origin = m.originOf (.ofParts .typeDef row))
    (howner : m.reader.ownerOf (Token.ofParts .methodDef method).row = .ok row) (hy : ShownFor t memory method y) :
    m.MemberAt memory t method y := by
  obtain ⟨x, hx, hview⟩ := hy
  obtain ⟨owner, ho, hd⟩ := h.method_owner hx
  rw [howner, Except.ok.injEq] at ho
  subst ho
  have hplain : x.definition = x := h.method_definition hx
  have hresolves := resolveMethod_remembered h hx
  rcases viewed_cases hview with ⟨hi, hview⟩ | ⟨hi, rfl⟩
  · obtain ⟨hdefinition, hcontaining⟩ := MethodSymbol.view_of_asMemberOf hview hi
    refine ⟨?_, fun _ => hcontaining, fun hf => absurd hi (by rw [hf]; decide), fun _ => hcontaining⟩
    rw [hdefinition, hplain]
    exact hresolves
  · refine ⟨by rw [hplain]; exact hresolves, fun hf => absurd hf (by rw [hi]; decide),
      fun _ => ⟨hplain.symm, fun hargs => ?_⟩, ?_⟩
    · refine TypeSymbol.same_of_origin (h.type_plain hd).2 hargs ?_ ?_
      · rw [h.type_origin hd, ht]
      · rw [h.type_origin hd]; rfl
    · rintro ⟨token, htold⟩
      rw [TypeSymbol.definition_eq_self_iff.2 hi] at htold
      have htoken := h.type_origin htold
      rw [ht] at htoken
      rw [← originOf_inj htoken, hd, Option.some.injEq] at htold
      exact htold

/-! ## Nested types -/

/-- whether the type of a row is imported and has the name, apart from an arity marker -/
def showsType (m : LoadedModule) (name : String) (row : UInt32) : Bool :=
  m.importsType row &&
    match m.reader.typeRow row with
    | .ok typeRow => String.ofList (Arity.strip typeRow.name.toList) = name
    | .error _ => false

/-- a row that is remembered shows the name of its type -/
theorem showsType_of_remembered (h : m.Coherent memory) (hn : m.reader.NamedByToken) (name : String) {row : UInt32}
    (himports : m.importsType row = true) {u : TypeSymbol} (hu : memory.type? (.ofParts .typeDef row) = some u) :
    m.showsType name row = decide (u.name = name) := by
  cases hr : m.reader.typeRow row with
  | error e => rw [importsType, hr] at himports; cases himports
  | ok typeRow =>
    obtain ⟨row', htoken, hat⟩ := h.types _ u hu
    obtain ⟨otherRow, hr', hfields⟩ := hat.fields
    have hname : u.name = String.ofList (Arity.strip typeRow.name.toList) := by
      rw [hn row row' typeRow otherRow hr hr' htoken, hfields]
      rfl
    rw [showsType, himports, hr, hname]
    rfl

/-- the nested types that are shown are what is remembered for the rows of the name -/
theorem nested_remembered (h : m.Coherent memory) (hn : m.reader.NamedByToken) (name : String) {rows : List UInt32}
    {us : List TypeSymbol} (hus : List.Forall₂ (fun row u => memory.type? (.ofParts .typeDef row) = some u)
      (rows.filter m.importsType) us) :
    List.Forall₂ (fun row u => memory.type? (.ofParts .typeDef row) = some u)
      (rows.filter (m.showsType name)) (us.filter (·.name = name)) := by
  induction rows generalizing us with
  | nil => cases hus; exact .nil
  | cons row rows ih =>
    rw [List.filter_cons] at hus ⊢
    split at hus
    · next himports =>
      obtain ⟨u, more, hu, hmore, rfl⟩ := List.forall₂_cons_left_iff.1 hus
      rw [showsType_of_remembered h hn name himports hu, List.filter_cons]
      split
      · exact .cons hu (ih hmore)
      · exact ih hmore
    · next himports =>
      have hshows : m.showsType name row = false := by simp [showsType, himports]
      rw [hshows]
      exact ih hus

/-- the nested types that are shown are what the rows of the name resolve to -/
theorem nested_shown (h : m.Coherent memory) (hb : m.reader.BoundedTypes) (name : String) {rows : List UInt32}
    {us : List TypeSymbol} (hus : List.Forall₂ (fun row u => memory.type? (.ofParts .typeDef row) = some u)
      (rows.filter m.importsType) us) :
    List.Forall₂ (fun row u => ((m.resolveType (.ofParts .typeDef row)).runFrom memory).1 = .ok u)
      (rows.filter (m.showsType name)) (us.filter (·.name = name)) := by
  have hshown := (List.forall₂_and_left _ _).2
    ⟨fun row hrow => (List.mem_filter.1 hrow).2, nested_remembered h hb.namedByToken name hus⟩
  refine hshown.imp ?_
  rintro row u ⟨hshows, hu⟩
  cases hr : m.reader.typeRow row with
  | error e => simp [showsType, hr] at hshows
  | ok typeRow =>
    obtain ⟨h0, hle⟩ := hb.typeRow row typeRow hr
    rw [runFrom_resolveType_ofParts hb h0 hle, runFrom_typeOfRow_of_remembered hu]

/-! ## Members -/

theorem token_of_ownRow {origin : Origin} {row : UInt32} (h : m.ownRow origin .typeDef = .ok row) :
    ∃ token, origin = m.originOf token ∧ token = .ofParts .typeDef row ∧ token.row = row := by
  unfold ownRow at h
  split at h
  · next id token =>
    split at h
    · cases h
    · next hid =>
      split at h <;> cases h
      next hselects => exact ⟨token, by rw [originOf, not_not.1 hid], Token.eq_ofParts hselects, rfl⟩
  · cases h

/-- **Members are exactly the visible ones.** Take a reader with its runs in row order that takes ownership from the
rows. If the members of a type are told, at any time, they are first the methods that the type owns, that have the name
and are imported, in row order and each once, and then the nested types that are imported and have the name without an
arity marker, in table order. A method stands for what its row resolves to at any later time, and its type is the one
that was asked about. -/
theorem members_exact (hb : m.reader.Bounded) (hord : m.reader.toTables.Ordered)
    (hruns : m.reader.methodsOf = m.reader.methodRun) (howners : m.reader.ownerOf = m.reader.owner) (asks : List Ask)
    (t : TypeSymbol) (name : String) (found : List Symbol)
    (hfound : ((m.members t name).runFrom (m.after asks)).1 = .ok found) :
    ∃ token methodRows methods nested, t.origin = m.originOf token ∧
      found = methods.map .method ++ nested.map .type ∧ methodRows.Pairwise (· < ·) ∧
      (∀ method, method ∈ methodRows ↔
        m.reader.ownerOf method = .ok token.row ∧ m.showsMethod name method = true) ∧
      ∀ later after, after = m.after (asks ++ .members t name :: later) →
        List.Forall₂ (m.MemberAt after t) methodRows methods ∧
        List.Forall₂ (fun row u => ((m.resolveType (.ofParts .typeDef row)).runFrom after).1 = .ok u)
          ((m.reader.nestedIn token.row).filter (m.showsType name)) nested := by
  have hsound := members_found t name (m.after_coherent asks)
  obtain ⟨row, run, methods, us, hown, hrun, rfl, hmethods, hus⟩ := hsound.answers found hfound
  obtain ⟨token, horigin, htoken, rfl⟩ := token_of_ownRow hown
  obtain ⟨hpairwise, hmem⟩ := mem_methodRows hb hord hruns howners hrun name
  refine ⟨token, _, methods, _, horigin, rfl, hpairwise, hmem, ?_⟩
  rintro later _ rfl
  -- what was remembered when the members were told still is
  obtain ⟨hafter, hgrows⟩ := run_coherent later hsound.keeps
  rw [after_append]
  constructor
  · have hrows := (List.forall₂_and_left _ _).2 ⟨fun method hm => ((hmem method).1 hm).1, hmethods⟩
    refine hrows.imp ?_
    rintro method y ⟨howner, hy⟩
    rw [howners] at howner
    have hfits := UInt32.le_trans (Tables.method_range_of_owner howner).2 hb.methods
    refine (hy.mono hgrows).member hafter (by rw [← htoken]; exact horigin) ?_
    rw [Token.row_ofParts_of_le hfits, howners, howner]
  · exact nested_shown hafter hb.boundedTypes name (hus.imp fun _ _ hu => hgrows.types _ _ hu)

/-- a generic type with two methods and two nested types of one name, of which one each is private -/
def boxes : Image :=
  ((Image.empty "Boxes.dll" ⟨.replicate 16 7⟩).addAll
    [.type "" "Box`1" 1, .genericParams (.ofParts .typeDef 1) ["T"], .method "Get" 6, .method "Get" 1,
      .nestedType (.ofParts .typeDef 1) "Get`2" 2, .nestedType (.ofParts .typeDef 1) "Get" 3]).1

/-- the module with that type, as it is seen from outside -/
def boxView : LoadedModule := .ofHeader boxes.reader boxes.header .publicOnly

def box : TypeSymbol := .ofRow ⟨1, "Box`1", "", 1, ["T"]⟩ (boxView.originOf (.ofParts .typeDef 1)) none

def boxOfBox : TypeSymbol := { box with args := [box], link := some box }

/-- the public method is a member of the instance, and the private one and the private type are left out -/
theorem members_exact_instance :
    ∃ found, ((boxView.members boxOfBox "Get").runFrom (boxView.after [])).1 = .ok found ∧
      found.map Symbol.text = ["Box`1[Box`1]::Get", "Box`1+Get`2"] ∧
      ∀ y, .method y ∈ found → y.containing = boxOfBox := by
  have hgrown : boxes.Grown := Image.grown_addAll (Image.grown_empty _ _) _ (by decide) (by decide)
  have htexts : ((boxView.members boxOfBox "Get").runFrom (boxView.after [])).1.toOption.map (·.map Symbol.text) =
      some ["Box`1[Box`1]::Get", "Box`1+Get`2"] := by decide +kernel
  obtain ⟨found, hfound, htexts⟩ := Option.map_eq_some_iff.1 htexts
  have hfound := Except.eq_ok_of_toOption hfound
  refine ⟨found, hfound, htexts, fun y hy => ?_⟩
  obtain ⟨token, methodRows, methods, nested, -, rfl, -, -, hlater⟩ :=
    members_exact (Image.bounded_of_size (by decide) (by decide)) (hgrown.ordered (by decide) (by decide)) rfl rfl []
      boxOfBox "Get" found hfound
  have hmethod : y ∈ methods := by simpa using hy
  obtain ⟨row, hmember⟩ := shown_of_mem (hlater [] _ rfl).1 hmethod
  exact hmember.ofInstance (by decide)

end LoadedModule

end FrameSymbols
