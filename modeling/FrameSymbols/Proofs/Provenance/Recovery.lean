/-
Recovery undoes lowering.

`Lowered` says what a compiler leaves behind when it moves the body of a method into a nested type: the name of the
type holds the name of the method, and an attribute of the method holds the serialized name of the type. In a regular
reader that name leads back to the type (`rowOfName_of_serializes`), so the method is one of the candidates of every
step method of the type, and if there is no other it is recovered (`provenance_of_lowered`).
`recovery_undoes_lowering` says this of images that are grown entry by entry.
-/
import FrameSymbols.Proofs.Blob
import FrameSymbols.Proofs.GeneratedName.SourceNames
import FrameSymbols.Proofs.Module.SerializedNames
import FrameSymbols.Proofs.Provenance.ByAttribute

namespace FrameSymbols.LoadedModule

open FrameSymbols.TypeName (Path IsAssembly spell)

/-! ## What a compiler leaves behind -/

/-- the text is a serialized name of the row: the names of its path, with what is special or blank escaped, and the
assembly of the module, if any -/
def Serializes (m : LoadedModule) (row : UInt32) (text : String) : Prop :=
  ∃ (p : Path) (assembly : Option String), p.WellFormed ∧
    m.reader.Named row (spell p.space) (spell p.top) (p.nested.map spell) ∧
    (∀ name ∈ assembly, IsAssembly name ∧ Text.sameIgnoringCase name m.assemblyName = true) ∧
    text = String.ofList (p.text ++ Path.qualification assembly)

/-- the body of `method`, a method of `owner` with the given name, is lowered to `machine`, a type nested beside it -/
structure Lowered (m : LoadedModule) (method owner machine : UInt32) (name : String) : Prop where
  owned : m.reader.ownerOf method = .ok owner
  named : ∃ methodRow, m.reader.methodRow method = .ok methodRow ∧ methodRow.name = name
  balanced : GeneratedName.Balanced name.toList
  plain : '-' ∉ name.toList
  nested : m.reader.encloser machine = some owner
  machineNamed : ∃ typeRow rest, m.reader.typeRow machine = .ok typeRow ∧
    typeRow.name.toList = GeneratedName.stateMachineName name.toList rest
  path : ∃ path, IsPath m.reader machine path ∧ path.length ≤ maxNesting ∧
    ∀ row ∈ machine :: path, m.reader.FirstOfName row
  declared : ∃ a ∈ AttributeType.stateMachine, ∃ text value, m.Serializes machine text ∧
    (Utf8.encode text).length ≤ Blob.compressedMax ∧ Blob.ofArgument (some text) = .ok value ∧
    (m.reader.attributes (.ofParts .methodDef method)).filter (fun row => AttributeType.stateMachine.any (·.isOf row)) =
      [⟨.ofParts .methodDef method, a.space, a.name, value⟩]

/-- the method of a row has the name, belongs to `owner` and declares `machine` -/
def Declares (m : LoadedModule) (owner machine : UInt32) (name : String) (method : UInt32) : Prop :=
  m.reader.ownerOf method = .ok owner ∧
    (∃ methodRow, m.reader.methodRow method = .ok methodRow ∧ methodRow.name = name) ∧
    ∃ text, m.reader.declaredAt method = some text ∧ m.rowOfName text = some machine

variable {m : LoadedModule} {memory : Memory}

/-! ## The name of the machine leads back to it -/

theorem rowOfName_of_serializes (hr : m.reader.Regular) {row : UInt32} {text : String} (ht : m.Serializes row text)
    {path : List UInt32} (hp : IsPath m.reader row path)
    (hfirst : ∀ visited ∈ row :: path, m.reader.FirstOfName visited) : m.rowOfName text = some row := by
  obtain ⟨p, assembly, hwell, hnamed, hassembly, rfl⟩ := ht
  have hhere : ∀ name ∈ (p.typeName assembly).assemblySimpleName, Text.sameIgnoringCase name m.assemblyName = true := by
    intro name hn
    obtain ⟨full, hfull, rfl⟩ := Option.map_eq_some_iff.1 hn
    obtain ⟨hname, hsame⟩ := hassembly full hfull
    rwa [hname.beforeComma_eq]
  rw [rowOfName, Path.parse_text hwell fun name hn => (hassembly name hn).1]
  exact rowNamed_of_named hr.typesInOrder hnamed rfl hhere hp hfirst

theorem declaredAt_of_single {reader : Reader} {method : UInt32} {a : AttributeType}
    (ha : a ∈ AttributeType.stateMachine) {text : String} {value : List UInt8}
    (hv : Blob.argument value = .ok (some text))
    (hone : (reader.attributes (.ofParts .methodDef method)).filter
        (fun row => AttributeType.stateMachine.any (·.isOf row)) =
      [⟨.ofParts .methodDef method, a.space, a.name, value⟩]) :
    reader.declaredAt method = some text := by
  have hfind : ∀ b ∈ AttributeType.stateMachine, (reader.attributes (.ofParts .methodDef method)).find? b.isOf =
      [⟨.ofParts .methodDef method, a.space, a.name, value⟩].find? b.isOf := by
    intro b hb
    rw [← hone, List.find?_filter]
    congr 1
    funext row
    cases hb' : b.isOf row with
    | false => simp
    | true => simpa using ⟨b, hb, hb'⟩
  have hasync := hfind .asyncStateMachine (by simp [AttributeType.stateMachine])
  have hiterator := hfind .iteratorStateMachine (by simp [AttributeType.stateMachine])
  unfold Reader.declaredAt Reader.argumentAt
  rw [hasync, hiterator]
  simp only [AttributeType.stateMachine, List.mem_cons, List.not_mem_nil, or_false] at ha
  rcases ha with rfl | rfl
  · simp [AttributeType.isOf, hv, Except.toOption]
  · simp [AttributeType.isOf, AttributeType.asyncStateMachine, AttributeType.iteratorStateMachine, hv,
      Except.toOption]

theorem Lowered.declares {method owner machine : UInt32} {name : String} (h : m.Lowered method owner machine name)
    (hr : m.reader.Regular) : m.Declares owner machine name method := by
  obtain ⟨path, hp, -, hfirst⟩ := h.path
  obtain ⟨a, ha, text, value, ht, hlength, hv, hone⟩ := h.declared
  exact ⟨h.owned, h.named, text, declaredAt_of_single ha (Blob.argument_ofArgument hv hlength) hone,
    rowOfName_of_serializes hr ht hp hfirst⟩

/-! ## The step methods of the machine -/

/-- the source name is read back from the name of the machine -/
theorem Lowered.stepSourceName {method owner machine : UInt32} {name : String} (h : m.Lowered method owner machine name)
    {t : TypeSymbol} (ht : m.TypeAt memory machine t) : stepSourceName? t = some name := by
  obtain ⟨typeRow, rest, htr, hname⟩ := h.machineNamed
  obtain ⟨typeRow', htr', hrow⟩ := ht.fields
  rw [htr, Except.ok.injEq] at htr'
  subst htr'
  have hmetadata : t.metadataName = typeRow.name := by rw [hrow]; rfl
  unfold stepSourceName? TypeSymbol.name
  rw [hmetadata, hname, String.toList_ofList, GeneratedName.sourceName?_lowered h.balanced h.plain,
    Option.map_some, String.ofList_toList]

theorem isImported_all (flags : UInt32) : MethodFlags.isImported flags .all = true := by
  unfold MethodFlags.isImported
  cases MethodFlags.reach flags <;> rfl

theorem showsMethod_iff (hall : m.importLevel = .all) (name : String) (method : UInt32) :
    m.showsMethod name method = true ↔
      ∃ methodRow, m.reader.methodRow method = .ok methodRow ∧ methodRow.name = name := by
  unfold showsMethod
  cases m.reader.methodRow method with
  | error e => simp
  | ok methodRow => simp [hall, isImported_all]

theorem provesAt_iff (hr : m.reader.Regular) (hc : m.Coherent memory) {machine : UInt32} {t : TypeSymbol}
    (hmachine : machine ≤ m.reader.rowCount .typeDef) (ht : memory.type? (.ofParts .typeDef machine) = some t)
    (method : UInt32) :
    m.provesAt memory t method = true ↔
      ∃ text, m.reader.declaredAt method = some text ∧ m.rowOfName text = some machine := by
  unfold provesAt
  rw [Option.any_eq_true]
  refine exists_congr fun text => and_congr_right fun _ => ?_
  rw [leadsTo_iff hc ht]
  constructor
  · rintro ⟨row, hrow, he⟩
    obtain ⟨n, -, hn⟩ := Option.bind_eq_some_iff.1 hrow
    have hle := row_le_of_rowNamed hr.typesInOrder hn
    rw [Token.ofParts_inj (UInt32.le_trans hle hr.bounded.types) (UInt32.le_trans hmachine hr.bounded.types) he] at hrow
    exact hrow
  · intro hrow
    exact ⟨machine, hrow, rfl⟩

/-- the type of a resolved step method is remembered, and so is the type around it -/
theorem Lowered.remembered {method owner machine : UInt32} {name : String} (h : m.Lowered method owner machine name)
    (hr : m.reader.Regular) (hc : m.Coherent memory) {token : Token} {x : MethodSymbol}
    (hx : memory.method? token = some x) (hstep : m.reader.ownerOf token.row = .ok machine) :
    memory.type? (.ofParts .typeDef machine) = some x.containing ∧ m.TypeAt memory machine x.containing ∧
      ∃ outer, x.containing.containing = some outer ∧ memory.type? (.ofParts .typeDef owner) = some outer := by
  obtain ⟨row, hown, ht⟩ := hc.method_owner hx
  rw [hstep, Except.ok.injEq] at hown
  rw [← hown] at ht
  have hat := hc.typeAt hr.bounded.boundedTypes (hr.outward machine owner h.nested).2.2 ht
  obtain ⟨-, -, outer, houter, hk⟩ := hat.nested owner h.nested
  exact ⟨ht, hat, outer, houter, hk⟩

/-- the candidates for a step method of the machine are the methods that declare it, in row order -/
theorem provenance_candidates (hr : m.reader.Regular) (hall : m.importLevel = .all) (hc : m.Coherent memory)
    {method owner machine : UInt32} {name : String} (h : m.Lowered method owner machine name) {token : Token}
    {x : MethodSymbol} (hx : memory.method? token = some x) (hstep : m.reader.ownerOf token.row = .ok machine) :
    ∃ rows symbols, ((m.provenance x).runFrom memory).1 = .ok (.ofProven x symbols) ∧ rows.Pairwise (· < ·) ∧
      (∀ row, row ∈ rows ↔ m.Declares owner machine name row) ∧
      List.Forall₂ (fun row y => ((m.provenance x).runFrom memory).2.method? (.ofParts .methodDef row) = some y)
        rows symbols := by
  obtain ⟨howner0, hlt, hmachine⟩ := hr.outward machine owner h.nested
  have howner : owner ≤ m.reader.rowCount .typeDef := UInt32.le_trans (UInt32.le_of_lt hlt) hmachine
  have hrow : (Token.ofParts .typeDef owner).row = owner :=
    Token.row_ofParts_of_le (UInt32.le_trans howner hr.bounded.types)
  obtain ⟨ht, hat, outer, hcontaining, houter⟩ := h.remembered hr hc hx hstep
  obtain ⟨found, hfound⟩ := members_answers hr hc houter howner0 howner name
  rcases hrun : (m.members outer name).runFrom memory with ⟨answer, memory'⟩
  rw [hrun] at hfound
  simp only at hfound
  subst hfound
  obtain ⟨run, symbols, hmethods, hprov, hshown⟩ :=
    provenance_of_members hc hx ht (h.stepSourceName hat) hcontaining houter hrun
  obtain ⟨run', hrun', hpairwise, hmem⟩ := methodsOf_spec hr howner0 howner
  rw [hrow, hrun', Except.ok.injEq] at hmethods
  subst hmethods
  refine ⟨_, symbols, hprov, (hpairwise.filter _).filter _, ?_, hshown⟩
  intro row
  rw [List.mem_filter, List.mem_filter, hmem, showsMethod_iff hall, provesAt_iff hr hc hmachine ht, Declares,
    hr.ownerOf, and_assoc]

theorem eq_singleton_of_ascending {rows : List UInt32} {row : UInt32} (h : rows.Pairwise (· < ·)) (hmem : row ∈ rows)
    (hall : ∀ other ∈ rows, other = row) : rows = [row] := by
  cases rows with
  | nil => cases hmem
  | cons first rest =>
    have hfirst := hall first List.mem_cons_self
    cases rest with
    | nil => rw [hfirst]
    | cons second rest =>
      have hsecond := hall second (by simp)
      have hlt := (List.pairwise_cons.1 h).1 second List.mem_cons_self
      rw [hfirst, hsecond] at hlt
      exact absurd hlt (UInt32.lt_irrefl _)

theorem two_le_length {rows : List UInt32} {row other : UInt32} (h : row ∈ rows) (ho : other ∈ rows)
    (hne : other ≠ row) : 2 ≤ rows.length := by
  match rows, h, ho with
  | [first], h, ho => exact absurd ((List.mem_singleton.1 ho).trans (List.mem_singleton.1 h).symm) hne
  | first :: second :: rest, _, _ => simp

/-- decoded now or among the members, a method of a type that is remembered is one symbol -/
theorem resolves_to_member (hr : m.reader.Regular) (hc : m.Coherent memory) {owner : UInt32} {outer : TypeSymbol}
    (houter : memory.type? (.ofParts .typeDef owner) = some outer) {row : UInt32} (hown : m.reader.ownerOf row = .ok owner)
    (x : MethodSymbol) {z : MethodSymbol}
    (hz : ((m.provenance x).runFrom memory).2.method? (.ofParts .methodDef row) = some z) :
    ((m.resolveMethod (.ofParts .methodDef row)).runFrom memory).1 = .ok z := by
  have howned : m.reader.owner row = .ok owner := by rw [← hr.ownerOf]; exact hown
  have hrow : (Token.ofParts .methodDef row).row = row :=
    Token.row_ofParts_of_le (UInt32.le_trans (Tables.method_range_of_owner howned).2 hr.bounded.methods)
  obtain ⟨y, hy⟩ := resolveMethod_answers hr hc houter howned
  obtain ⟨hkeeps, hgrows, hanswers⟩ := resolveMethod_sound (.ofParts .methodDef row) hc
  obtain ⟨hkeeps', hgrows', -⟩ := provenance_sound x hc
  have heq : y = z := MethodAt.eq_of_owner (hkeeps.methods _ _ (hanswers y hy)) (hkeeps'.methods _ _ hz)
    (by rw [hrow]; exact hown) (hgrows.types _ _ houter) (hgrows'.types _ _ houter)
  rw [hy, heq]

/-- a step method of the machine leads back to the method, or to several methods that declare the machine -/
theorem provenance_of_lowered (hr : m.reader.Regular) (hall : m.importLevel = .all) (hc : m.Coherent memory)
    {method owner machine : UInt32} {name : String} (h : m.Lowered method owner machine name) {token : Token}
    {x : MethodSymbol} (hx : memory.method? token = some x) (hstep : m.reader.ownerOf token.row = .ok machine) :
    ∃ y, ((m.resolveMethod (.ofParts .methodDef method)).runFrom memory).1 = .ok y ∧
      ((∀ other, m.Declares owner machine name other → other = method) →
        ((m.provenance x).runFrom memory).1 = .ok (.recovered y)) ∧
      ((∃ other, m.Declares owner machine name other ∧ other ≠ method) →
        ∃ first count, 2 ≤ count ∧ ((m.provenance x).runFrom memory).1 = .ok (.ambiguous first count) ∧
          ∃ least more, (least :: more).Pairwise (· < ·) ∧ (least :: more).length = count ∧
            (∀ row, row ∈ least :: more ↔ m.Declares owner machine name row) ∧
            ((m.resolveMethod (.ofParts .methodDef least)).runFrom memory).1 = .ok first) := by
  obtain ⟨rows, symbols, hprov, hpairwise, hrows, hsymbols⟩ := provenance_candidates hr hall hc h hx hstep
  obtain ⟨-, -, outer, -, houter⟩ := h.remembered hr hc hx hstep
  have howned : m.reader.owner method = .ok owner := by rw [← hr.ownerOf]; exact h.owned
  have hmem : method ∈ rows := (hrows method).2 (h.declares hr)
  obtain ⟨y, hy⟩ := resolveMethod_answers hr hc houter howned
  refine ⟨y, hy, ?_, ?_⟩
  · intro halone
    have hone := eq_singleton_of_ascending hpairwise hmem fun other ho => halone other ((hrows other).1 ho)
    rw [hone] at hsymbols
    obtain ⟨z, rest, hz, hnil, rfl⟩ := List.forall₂_cons_left_iff.1 hsymbols
    cases hnil
    obtain rfl : y = z := Except.ok.inj (hy.symm.trans (resolves_to_member hr hc houter h.owned x hz))
    exact hprov
  · rintro ⟨other, hother, hne⟩
    have htwo : 2 ≤ rows.length := two_le_length hmem ((hrows other).2 hother) hne
    match rows, symbols, hsymbols, htwo with
    | least :: second :: more, first :: _ :: others, .cons hfirst (.cons _ hothers), _ =>
      have hdeclares : m.Declares owner machine name least := (hrows least).1 List.mem_cons_self
      refine ⟨first, others.length + 2, by omega, hprov, least, second :: more, hpairwise, ?_, hrows, ?_⟩
      · simp [hothers.length_eq]
      · exact resolves_to_member hr hc houter hdeclares.1 x hfirst

/-- **Recovery undoes lowering.** In an image grown entry by entry, loaded with every member, take a method whose body
is lowered to a nested type. However the view has been used, every step method of that type has the method as its
provenance, if no other method of the same name and owner declares the type. Otherwise the provenance is ambiguous: it
stands for the first row of a method that declares the type, and counts all of them. -/
theorem recovery_undoes_lowering (file : String) (id : ModuleId) (entries : List Image.Entry) (image : Image)
    (himage : image = ((Image.empty file id).addAll entries).1) (ht : image.types.size < 2 ^ 24)
    (hm : image.methods.size < 2 ^ 24) {method owner machine : UInt32} {name : String}
    (h : image.view.Lowered method owner machine name) (before later : List Ask) (token : Token) (x : MethodSymbol)
    (hx : ((image.view.resolveMethod token).runFrom (image.view.after before)).1 = .ok x)
    (hstep : image.view.reader.ownerOf token.row = .ok machine) (memory : Memory)
    (hmemory : memory = image.view.after (before ++ .method token :: later)) :
    ∃ y, ((image.view.resolveMethod (.ofParts .methodDef method)).runFrom memory).1 = .ok y ∧
      ((∀ other, image.view.Declares owner machine name other → other = method) →
        ((image.view.provenance x).runFrom memory).1 = .ok (.recovered y)) ∧
      ((∃ other, image.view.Declares owner machine name other ∧ other ≠ method) →
        ∃ first count, 2 ≤ count ∧ ((image.view.provenance x).runFrom memory).1 = .ok (.ambiguous first count) ∧
          ∃ least more, (least :: more).Pairwise (· < ·) ∧ (least :: more).length = count ∧
            (∀ row, row ∈ least :: more ↔ image.view.Declares owner machine name row) ∧
            ((image.view.resolveMethod (.ofParts .methodDef least)).runFrom memory).1 = .ok first) := by
  have hgrown : image.Grown := by
    subst himage
    exact Image.grown_addAll (Image.grown_empty file id) entries ht hm
  have hr : image.view.reader.Regular := hgrown.regular ht hm
  subst hmemory
  exact provenance_of_lowered hr rfl (image.view.after_coherent _) h (remembered_of_resolved hx) hstep

/-! ## The sample -/

/-- the path of the state machine type of the sample -/
def samplePath : Path :=
  ⟨"Demo".toList.map (⟨·, false⟩), "Program".toList.map (⟨·, false⟩), ["<Foo>d__0".toList.map (⟨·, false⟩)]⟩

theorem sample_serializes : Image.sample.view.Serializes 2 "Demo.Program+<Foo>d__0" := by
  refine ⟨samplePath, none, ⟨by decide, ⟨by decide, by decide, by decide⟩, by decide, ?_⟩, ?_, nofun, ?_⟩
  · intro ls hl
    rw [samplePath, List.mem_singleton] at hl
    subst hl
    exact ⟨by decide, by decide, by decide⟩
  · have hspell : spell samplePath.space = "Demo" ∧ spell samplePath.top = "Program" ∧
        samplePath.nested.map spell = [] ++ ["<Foo>d__0"] := by decide
    rw [hspell.1, hspell.2.1, hspell.2.2]
    exact @Reader.Named.nested _ 2 1 ⟨3, "<Foo>d__0", "", 2, []⟩ _ _ _ rfl rfl
      (@Reader.Named.top _ 1 ⟨1, "Program", "Demo", 1, []⟩ rfl rfl)
  · decide

theorem sample_lowered : Image.sample.view.Lowered 1 1 2 "Foo" where
  owned := by decide +kernel
  named := ⟨_, rfl, rfl⟩
  balanced := by decide
  plain := by decide
  nested := by decide
  machineNamed := ⟨_, "__0".toList, rfl, by decide⟩
  path := ⟨[1], ⟨rfl, rfl⟩, by decide, fun row _ => sample_firstOfName row⟩
  declared := by
    refine ⟨.iteratorStateMachine, ?_, _, _, sample_serializes, by decide +kernel, rfl, by decide +kernel⟩
    simp [AttributeType.stateMachine]

/-- the step method of the sample leads back to the method of type 1 -/
theorem recovery_undoes_lowering_sample :
    ∃ x y, ((Image.sample.view.resolveMethod (.ofParts .methodDef 2)).runFrom (Image.sample.view.after [])).1 = .ok x ∧
      ((Image.sample.view.resolveMethod (.ofParts .methodDef 1)).runFrom
        (Image.sample.view.after [.method (.ofParts .methodDef 2)])).1 = .ok y ∧
      ((Image.sample.view.provenance x).runFrom (Image.sample.view.after [.method (.ofParts .methodDef 2)])).1 =
        .ok (.recovered y) := by
  obtain ⟨x, hx⟩ := Image.sample_resolves
  obtain ⟨y, hy, halone, -⟩ := recovery_undoes_lowering _ _ _ Image.sample rfl (by decide) (by decide) sample_lowered
    [] [] (.ofParts .methodDef 2) x hx (by decide +kernel) _ rfl
  refine ⟨x, y, hx, hy, halone ?_⟩
  rintro other ⟨_, ⟨methodRow, hrow, hname⟩, _⟩
  have hb : Image.sample.view.reader.Bounded := Image.bounded_of_size (by decide) (by decide)
  obtain ⟨h0, hle⟩ := hb.methodRow other methodRow hrow
  rcases eq_one_or_two h0 hle with rfl | rfl
  · rfl
  · have htwo : Image.sample.view.reader.methodRow 2 = .ok ⟨0x1E1, "MoveNext", []⟩ := rfl
    rw [htwo, Except.ok.injEq] at hrow
    rw [← hrow] at hname
    exact absurd hname (by decide)

end FrameSymbols.LoadedModule
