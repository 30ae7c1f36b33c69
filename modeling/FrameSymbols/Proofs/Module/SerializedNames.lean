/-
Types and the serialized names that lead to them.

The names around a type and its own make a type name without arguments (`TypeSymbol.typeName`), whose text is the full
name of the type unless something has to be escaped (`escapedPath_eq_fullName`). What a name leads to has the names that
were read (`typeName_of_typeForName`), and the path of a type that is the first of its name, as are the types around it,
leads to that type by the very run that its token does (`runFrom_escapedPath`). `serialized_names_correspond` says both of
every image that was grown entry by entry.
-/
import FrameSymbols.Proofs.Image.Grown
import FrameSymbols.Proofs.Module.Paths
import FrameSymbols.Proofs.TypeName.Canonical

namespace FrameSymbols

open FrameSymbols.TypeName

/-! ## The name of a type -/

namespace TypeSymbol

/-- the types around a type and the type itself, outermost first -/
def chain (t : TypeSymbol) : List TypeSymbol := (t :: t.enclosing).reverse

/-- the names of a type and of those around it, as a type name without arguments -/
def typeName : TypeSymbol → TypeName
  | ⟨metadataName, space, _, _, _, containing, _, _⟩ =>
    match containing with
    | none => ⟨space, metadataName, [], [], [], none⟩
    | some outer => ⟨outer.typeName.space, outer.typeName.top, outer.typeName.nested ++ [metadataName], [], [], none⟩

/-- the path of a type, with a backslash before what needs one -/
def escapedPath (t : TypeSymbol) : String := t.typeName.print

theorem typeName_outermost {t : TypeSymbol} (h : t.containing = none) :
    t.typeName = ⟨t.space, t.metadataName, [], [], [], none⟩ := by
  cases t
  cases h
  rw [typeName]

theorem typeName_nested {t outer : TypeSymbol} (h : t.containing = some outer) :
    t.typeName = ⟨outer.typeName.space, outer.typeName.top, outer.typeName.nested ++ [t.metadataName], [], [], none⟩ := by
  cases t
  cases h
  rw [typeName]

theorem chain_outermost {t : TypeSymbol} (h : t.containing = none) : t.chain = [t] := by
  cases t
  cases h
  rw [chain, enclosing]
  rfl

theorem chain_nested {t outer : TypeSymbol} (h : t.containing = some outer) : t.chain = outer.chain ++ [t] := by
  cases t
  cases h
  rw [chain, enclosing, List.reverse_cons, chain]

theorem fullName_outermost {t : TypeSymbol} (h : t.containing = none) :
    t.fullName = if t.space = "" then t.metadataName else t.space ++ "." ++ t.metadataName := by
  cases t
  cases h
  rw [fullName]

theorem fullName_nested {t outer : TypeSymbol} (h : t.containing = some outer) :
    t.fullName = outer.fullName ++ "+" ++ t.metadataName := by
  cases t
  cases h
  rw [fullName]

/-- what holds of a type if it holds of the one around it holds of every type -/
theorem containing_induction {motive : TypeSymbol → Prop} (outermost : ∀ t, t.containing = none → motive t)
    (nested : ∀ t outer, t.containing = some outer → motive outer → motive t) : ∀ t, motive t
  | ⟨_, _, _, _, _, none, _, _⟩ => outermost _ rfl
  | ⟨_, _, _, _, _, some outer, _, _⟩ => nested _ outer rfl (containing_induction outermost nested outer)

theorem names_chain (t : TypeSymbol) :
    t.chain.map (·.metadataName) = t.typeName.top :: t.typeName.nested ∧
      t.chain.head?.map (·.space) = some t.typeName.space := by
  induction t using containing_induction with
  | outermost t h =>
    rw [chain_outermost h, typeName_outermost h]
    exact ⟨rfl, rfl⟩
  | nested t outer h ih =>
    rw [chain_nested h, typeName_nested h, List.map_append, ih.1]
    refine ⟨rfl, ?_⟩
    obtain ⟨first, rest, hcons⟩ : ∃ first rest, outer.chain = first :: rest :=
      List.exists_cons_of_ne_nil (by simp [chain])
    rw [hcons] at ih ⊢
    exact ih.2

/-- an instance has the name of its definition -/
theorem Rooted.typeName_definition {t : TypeSymbol} (h : t.Rooted) : t.definition.typeName = t.typeName := by
  have hcontaining := h.containing_definition
  cases hc : t.containing with
  | none =>
    rw [typeName_outermost (hcontaining.trans hc), typeName_outermost hc]
    conv_rhs => rw [h.eq_with]
  | some outer =>
    rw [typeName_nested (hcontaining.trans hc), typeName_nested hc]
    conv_rhs => rw [h.eq_with]

/-! ## Paths without a backslash -/

/-- nothing in the namespace or the names has to be escaped -/
def IsPlain (t : TypeSymbol) : Prop :=
  ∀ u ∈ t.chain, (∀ c ∈ u.space.toList, isPlain c = true) ∧ ∀ c ∈ u.metadataName.toList, isPlain c = true ∧ c ≠ '.'

theorem write_plain {f : Char → Letter} {cs : List Char} (h : ∀ c ∈ cs, f c = ⟨c, false⟩) : write (cs.map f) = cs := by
  induction cs with
  | nil => rfl
  | cons c cs ih =>
    rw [List.map_cons, h c List.mem_cons_self, write, ih fun c' hc => h c' (List.mem_cons_of_mem c hc)]
    rfl

theorem write_name {name : String} (h : ∀ c ∈ name.toList, isPlain c = true ∧ c ≠ '.') :
    write (name.toList.map nameLetter) = name.toList :=
  write_plain fun c hc => by simp [nameLetter, (h c hc).1, (h c hc).2]

theorem write_space {space : String} (h : ∀ c ∈ space.toList, isPlain c = true) :
    write (space.toList.map spaceLetter) = space.toList :=
  write_plain fun c hc => by simp [spaceLetter, h c hc]

theorem write_append (ls more : List Letter) : write (ls ++ more) = write ls ++ write more := by
  induction ls with
  | nil => rfl
  | cons l ls ih =>
    rw [List.cons_append, write, write, ih]
    split <;> rfl

theorem writeNested_append (names more : List (List Letter)) :
    writeNested (names ++ more) = writeNested names ++ writeNested more := by
  induction names with
  | nil => rfl
  | cons ls names ih => rw [List.cons_append, writeNested, writeNested, ih, List.append_assoc]

theorem escapedPath_eq (t : TypeSymbol) : t.escapedPath = String.ofList t.typeName.path.text := by
  have hprint : ∀ (space top : String) (nested : List String), print ⟨space, top, nested, [], [], none⟩ =
      String.ofList (path ⟨space, top, nested, [], [], none⟩).text := by
    intro space top nested
    simp [print, printSpec_eq, Path.qualification]
  cases hc : t.containing with
  | none => rw [escapedPath, typeName_outermost hc, hprint]
  | some outer => rw [escapedPath, typeName_nested hc, hprint]

/-- the name of a nested type comes behind the path of the type around it -/
theorem path_nested {t outer : TypeSymbol} (h : t.containing = some outer) :
    t.typeName.path.text = outer.typeName.path.text ++ '+' :: write (t.metadataName.toList.map nameLetter) := by
  rw [typeName_nested h]
  simp only [path, Path.text, Path.head, List.map_append, List.map_cons, List.map_nil, writeNested_append, writeNested,
    List.append_nil, List.append_assoc]
  rfl

theorem path_outermost {t : TypeSymbol} (h : t.containing = none) (hspace : ∀ c ∈ t.space.toList, isPlain c = true)
    (hname : ∀ c ∈ t.metadataName.toList, isPlain c = true ∧ c ≠ '.') :
    t.typeName.path.text =
      if t.space = "" then t.metadataName.toList else t.space.toList ++ '.' :: t.metadataName.toList := by
  rw [typeName_outermost h]
  simp only [path, Path.text, Path.head, List.map_nil, writeNested, List.append_nil, List.map_eq_nil_iff,
    String.toList_eq_nil_iff]
  split
  · exact write_name hname
  · rw [write_append, write_space hspace, write, write_name hname]
    rfl

/-- the path of a type whose names need no backslash is its full name -/
theorem escapedPath_eq_fullName (t : TypeSymbol) (h : t.IsPlain) : t.escapedPath = t.fullName := by
  rw [escapedPath_eq, ← String.toList_inj, String.toList_ofList]
  induction t using containing_induction with
  | outermost t hc =>
    obtain ⟨hspace, hname⟩ := h t (by rw [chain_outermost hc]; exact List.mem_singleton_self t)
    rw [path_outermost hc hspace hname, fullName_outermost hc]
    split <;> simp
  | nested t outer hc ih =>
    have hin : ∀ u ∈ outer.chain ++ [t], u ∈ t.chain := fun u hu => by rwa [chain_nested hc]
    have houter := ih fun u hu => h u (hin u (List.mem_append_left _ hu))
    rw [path_nested hc, houter, write_name (h t (hin t (by simp))).2, fullName_nested hc]
    simp

end TypeSymbol

/-! ## Rows and their names -/

namespace LoadedModule

variable {m : LoadedModule} {memory : Memory}

/-- what is remembered for a row has the names of the row -/
theorem TypeAt.typeName_eq (hc : m.Coherent memory) (hb : m.reader.BoundedTypes) {row : UInt32} {space top : String}
    {names : List String} (hn : m.reader.Named row space top names) {t : TypeSymbol} (hat : m.TypeAt memory row t) :
    t.typeName = ⟨space, top, names, [], [], none⟩ := by
  induction hn generalizing t with
  | @top row typeRow outermost decoded =>
    obtain ⟨typeRow', htr, ht⟩ := hat.fields
    rw [decoded, Except.ok.injEq] at htr
    subst htr
    rw [TypeSymbol.typeName_outermost (hat.outermost outermost), ht]
    rfl
  | @nested row outer typeRow space top names inside decoded _ ih =>
    obtain ⟨typeRow', htr, ht⟩ := hat.fields
    rw [decoded, Except.ok.injEq] at htr
    subst htr
    obtain ⟨-, hle, u, hu, hk⟩ := hat.nested outer inside
    rw [TypeSymbol.typeName_nested hu, ih (hc.typeAt hb hle hk), ht]
    rfl

/-- what a row is decoded to has the names of the row -/
theorem typeName_of_typeOfRow (hc : m.Coherent memory) (hb : m.reader.BoundedTypes) {row : UInt32}
    (hle : row ≤ m.reader.rowCount .typeDef) {space top : String} {names : List String}
    (hn : m.reader.Named row space top names) {t : TypeSymbol} (ht : ((m.typeOfRow row).runFrom memory).1 = .ok t) :
    t.typeName = ⟨space, top, names, [], [], none⟩ := by
  have hsound := typeOfRow_sound row hc
  exact (hsound.keeps.typeAt hb hle (hsound.answers t ht)).typeName_eq hsound.keeps hb hn

/-! ## Names that lead to types -/

/-- **What a name leads to has the names that were read**, and the name stays in the module. -/
theorem typeName_of_typeForName (hr : m.reader.TypesInOrder) (hc : m.Coherent memory) {text : String} {t : TypeSymbol}
    (h : ((m.typeForName text).runFrom memory).1 = .ok t) :
    ∃ n, TypeName.parse text = .ok n ∧ n.suffixes = [] ∧
      (∀ name ∈ n.assemblySimpleName, Text.sameIgnoringCase name m.assemblyName = true) ∧
      t.typeName = ⟨n.space, n.top, n.nested, [], [], none⟩ := by
  have hdefinition := m.typeForName_definition text memory
  rw [h] at hdefinition
  obtain ⟨row, hrow, hd⟩ := Option.bind_eq_some_iff.1 hdefinition.symm
  obtain ⟨n, hn, hrow⟩ := Option.bind_eq_some_iff.1 hrow
  obtain ⟨d, hd, hsame⟩ := Option.map_eq_some_iff.1 hd
  obtain ⟨hsuffixes, hassembly, hnamed⟩ := named_of_rowNamed hr hrow
  refine ⟨n, Except.eq_ok_of_toOption hn, hsuffixes, hassembly, ?_⟩
  have hd := Except.eq_ok_of_toOption hd
  have hrooted : t.Rooted := ((typeForName_sound text hc).answers t h).rooted
  have hdecoded := typeOfRow_sound row hc
  rw [← hrooted.typeName_definition, ← hsame, hdecoded.keeps.type_definition (hdecoded.answers d hd)]
  exact typeName_of_typeOfRow hc hr.toBoundedTypes (row_le_of_rowNamed hr hrow) hnamed hd

/-- a name without arguments leads to the type of its row -/
theorem runFrom_typeForName {text : String} {n : TypeName} (hn : TypeName.parse text = .ok n) (hargs : n.args = [])
    {row : UInt32} (hrow : m.rowNamed n = some row) (memory : Memory) :
    (m.typeForName text).runFrom memory = (m.typeOfRow row).runFrom memory := by
  unfold typeForName
  rw [Action.runFrom_bind, Action.runFrom_lift, hn]
  simp only [Action.runFrom_bind, runFrom_typeNamed, hrow, hargs, instanceOf_nil, typesNamed, Action.runFrom_pure]
  rcases (m.typeOfRow row).runFrom memory with ⟨_ | t, memory'⟩ <;> rfl

/-- **The path of a type leads to it**, by the run of its own token, if each type on the path is the first of its name.
-/
theorem runFrom_escapedPath (hr : m.reader.TypesInOrder) (hc : m.Coherent memory) {row : UInt32} {path : List UInt32}
    (h0 : row ≠ 0) (hle : row ≤ m.reader.rowCount .typeDef) (hp : IsPath m.reader row path)
    (hfirst : ∀ visited ∈ row :: path, m.reader.FirstOfName visited) {t : TypeSymbol}
    (ht : ((m.resolveType (.ofParts .typeDef row)).runFrom memory).1 = .ok t)
    (hnames : ∀ u ∈ t.chain, IsSimpleName u.metadataName) :
    (m.typeForName t.escapedPath).runFrom memory = (m.resolveType (.ofParts .typeDef row)).runFrom memory := by
  have hresolve := runFrom_resolveType_ofParts hr.toBoundedTypes h0 hle memory
  rw [hresolve] at ht ⊢
  obtain ⟨space, top, names, hn⟩ := named_of_path hr h0 hle hp
  have hname := typeName_of_typeOfRow hc hr.toBoundedTypes hle hn ht
  have hsimple : ∀ name ∈ top :: names, IsSimpleName name := by
    have hchain := t.names_chain.1
    rw [hname] at hchain
    intro name hin
    rw [← hchain] at hin
    obtain ⟨u, hu, rfl⟩ := List.mem_map.1 hin
    exact hnames u hu
  have hwell : TypeName.WellFormed ⟨space, top, names, [], [], none⟩ := .intro hsimple nofun nofun nofun nofun
  rw [TypeSymbol.escapedPath, hname]
  exact runFrom_typeForName hwell.parse_print rfl (rowNamed_of_named hr hn rfl nofun hp hfirst) memory

/-- **Serialized names and types correspond.** In an image grown entry by entry, however its view has been used: what a
name leads to has the names that were read, and the name is undecorated and stays in the module; and where a type with at
most `maxNesting` types around it and each of these are the first of their names, its token resolves, and its path leads
to the same symbol if its names can be read back. The path is the full name if nothing has to be escaped. -/
theorem serialized_names_correspond (file : String) (id : ModuleId) (entries : List Image.Entry) (image : Image)
    (himage : image = ((Image.empty file id).addAll entries).1) (ht : image.types.size < 2 ^ 24) (m : LoadedModule)
    (hm : m.reader = image.reader) (asks : List Ask) :
    (∀ text t, ((m.typeForName text).runFrom (m.after asks)).1 = .ok t →
      ∃ n, TypeName.parse text = .ok n ∧ n.suffixes = [] ∧
        (∀ name ∈ n.assemblySimpleName, Text.sameIgnoringCase name m.assemblyName = true) ∧
        t.chain.map (·.metadataName) = n.top :: n.nested ∧ t.chain.head?.map (·.space) = some n.space) ∧
    ∀ row path, row ≠ 0 → row ≤ m.reader.rowCount .typeDef → IsPath m.reader row path → path.length ≤ maxNesting →
      (∀ visited ∈ row :: path, m.reader.FirstOfName visited) →
      ∃ t, ((m.resolveType (.ofParts .typeDef row)).runFrom (m.after asks)).1 = .ok t ∧
        ((∀ u ∈ t.chain, IsSimpleName u.metadataName) →
          ((m.typeForName t.escapedPath).runFrom (m.after asks)).1 = .ok t) ∧
        (t.IsPlain → t.escapedPath = t.fullName) := by
  have hr : m.reader.TypesInOrder := by
    subst himage
    rw [hm]
    exact (Image.nestedInOrder_addAll (Image.nestedInOrder_empty file id) entries ht).typesInOrder ht
  have hc := m.after_coherent asks
  constructor
  · intro text t h
    obtain ⟨n, hn, hsuffixes, hassembly, hname⟩ := typeName_of_typeForName hr hc h
    obtain ⟨hnames, hspace⟩ := t.names_chain
    rw [hname] at hnames hspace
    exact ⟨n, hn, hsuffixes, hassembly, hnames, hspace⟩
  · intro row path h0 hle hp hlength hfirst
    obtain ⟨t, htype⟩ := typeOfRow_answers hr h0 hle hp hlength (m.after asks)
    rw [← runFrom_resolveType_ofParts hr.toBoundedTypes h0 hle] at htype
    refine ⟨t, htype, fun hnames => ?_, t.escapedPath_eq_fullName⟩
    rw [runFrom_escapedPath hr hc h0 hle hp hfirst htype hnames]
    exact htype

/-! ## The sample -/

theorem eq_one_or_two {row : UInt32} (h0 : row ≠ 0) (hle : row ≤ 2) : row = 1 ∨ row = 2 := by
  have hn : row.toNat ≤ 2 := UInt32.le_iff_toNat_le.1 hle
  have hn0 : row.toNat ≠ 0 := fun hz => h0 (UInt32.toNat_inj.1 hz)
  rw [← UInt32.toNat_inj, ← UInt32.toNat_inj]
  simp only [UInt32.reduceToNat]
  omega

theorem sample_firstOfName (row : UInt32) : Image.sample.view.reader.FirstOfName row := by
  intro other typeRow otherRow hr hor he _ _
  have hb : Image.sample.view.reader.Bounded := Image.bounded_of_size (by decide) (by decide)
  obtain ⟨h0, hle⟩ := hb.typeRow row typeRow hr
  obtain ⟨h0', hle'⟩ := hb.typeRow other otherRow hor
  rcases eq_one_or_two h0 hle with rfl | rfl <;> rcases eq_one_or_two h0' hle' with rfl | rfl
  · exact UInt32.le_refl _
  · decide
  · exact absurd he (by decide)
  · exact UInt32.le_refl _

/-- the nested type of the sample and the text of its path lead to each other -/
theorem serialized_names_correspond_sample :
    ∃ t, ((Image.sample.view.resolveType (.ofParts .typeDef 2)).runFrom (Image.sample.view.after [])).1 = .ok t ∧
      t.escapedPath = "Demo.Program+<Foo>d__0" ∧
      ((Image.sample.view.typeForName t.escapedPath).runFrom (Image.sample.view.after [])).1 = .ok t ∧
      ∃ n, TypeName.parse t.escapedPath = .ok n ∧ n.top :: n.nested = ["Program", "<Foo>d__0"] ∧ n.space = "Demo" := by
  obtain ⟨hsound, hcomplete⟩ := serialized_names_correspond _ _ _ Image.sample rfl (by decide) Image.sample.view rfl []
  obtain ⟨t, ht, hback, hplain⟩ := hcomplete 2 [1] (by decide) (by decide) ⟨rfl, rfl⟩ (by decide)
    fun row _ => sample_firstOfName row
  have hchain : (((Image.sample.view.resolveType (.ofParts .typeDef 2)).runFrom (Image.sample.view.after [])).1.toOption.map
      fun t => (t.chain.map fun u => (u.space, u.metadataName), t.fullName)) =
        some ([("Demo", "Program"), ("", "<Foo>d__0")], "Demo.Program+<Foo>d__0") := by decide +kernel
  rw [ht] at hchain
  have hnames : t.chain.map (fun u => (u.space, u.metadataName)) = [("Demo", "Program"), ("", "<Foo>d__0")] :=
    congrArg Prod.fst (Option.some.inj hchain)
  have hfull : t.fullName = "Demo.Program+<Foo>d__0" := congrArg Prod.snd (Option.some.inj hchain)
  have hmem : ∀ u ∈ t.chain, (u.space, u.metadataName) ∈ [("Demo", "Program"), ("", "<Foo>d__0")] :=
    fun u hu => hnames ▸ List.mem_map_of_mem hu
  have hsimple : ∀ p ∈ [("Demo", "Program"), ("", "<Foo>d__0")], IsSimpleName p.2 := by decide
  have hletters : ∀ p ∈ [("Demo", "Program"), ("", "<Foo>d__0")],
      p.1.toList.all isPlain = true ∧ (p.2.toList.all fun c => isPlain c && c != '.') = true := by decide
  have hfound := hback fun u hu => hsimple _ (hmem u hu)
  have hpath := hplain fun u hu => by simpa using hletters _ (hmem u hu)
  obtain ⟨n, hn, -, -, htops, hspace⟩ := hsound _ t hfound
  refine ⟨t, ht, hpath.trans hfull, hfound, n, hn, ?_, ?_⟩
  · have hsnd := congrArg (List.map Prod.snd) hnames
    rw [List.map_map] at hsnd
    exact htops.symm.trans hsnd
  · have hfirst := congrArg (fun names => names.head?.map Prod.fst) hnames
    simp only [List.head?_map, Option.map_map] at hfirst
    exact Option.some.inj (hspace.symm.trans hfirst)

end LoadedModule

end FrameSymbols
