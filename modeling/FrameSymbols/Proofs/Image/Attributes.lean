/-
Text attributes, from the call that adds one to the answer about a method.

The attributes of an image are those of its accepted calls, in order (`attributes_addAll`), so the first attribute of a
type on a method is that of the first call that applies the type to its token (`find?_attributesIn`). A view finds it by
the row that the method comes from, so it does not matter as whose member the method is viewed
(`attributeArgument_attributesIn`), and what was written is read back (`text_attributes_come_back`).
-/
import FrameSymbols.Proofs.Blob
import FrameSymbols.Proofs.Image.Log
import FrameSymbols.Proofs.Provenance.ByAttribute

namespace FrameSymbols

/-- a method that was resolved is a definition and comes from its token, which selects the table of methods -/
theorem LoadedModule.resolved_origin {m : LoadedModule} {asks : List Ask} {token : Token} {x : MethodSymbol}
    (hx : ((m.resolveMethod token).runFrom (m.after asks)).1 = .ok x) :
    token.selects .methodDef = true ∧ x.origin = m.originOf token ∧ x.definition = x := by
  have hsound := resolveMethod_sound token (m.after_coherent asks)
  have hk := hsound.answers x hx
  have hat := hsound.keeps.methods token x hk
  exact ⟨(checkToken_eq_ok_iff.1 hat.selected).1, (hsound.keeps.method_origin hk).1, hsound.keeps.method_definition hk⟩

namespace Image

def Entry.applies (a : AttributeType) (parent : Token) : Entry → Bool
  | .attribute other space name _ | .attributeBlob other space name _ =>
    other == parent && (name == a.name && space == a.space)
  | _ => false

def rowApplies (a : AttributeType) (parent : Token) (row : AttributeRow) : Bool := row.parent == parent && a.isOf row

variable {a : AttributeType} {parent : Token} {log : List Call}

/-- a row is an attribute of a type on a token when its entry says so -/
theorem rowApplies_of_entry {entry : Entry} {row : AttributeRow} (h : entry.attributeRow? = some row) :
    rowApplies a parent row = entry.applies a parent := by
  unfold Entry.attributeRow? at h
  split at h
  · obtain ⟨value, -, rfl⟩ := Option.map_eq_some_iff.1 h
    rfl
  · cases h
    rfl
  · cases h

/-- the attributes of an image are those it had and those of the accepted calls -/
theorem attributes_addAll (entries : List Entry) (image : Image) :
    (image.addAll entries).1.attributes.toList = image.attributes.toList ++ attributesIn (accepted image entries) := by
  induction entries generalizing image with
  | nil => simp [addAll, accepted, attributesIn]
  | cons entry entries ih =>
    have hrun : (image.addAll (entry :: entries)).1 = ((image.step entry).1.addAll entries).1 := rfl
    have hstep : (image.step entry).1.attributes.toList =
        image.attributes.toList ++ attributesIn ((image.step entry).2.toOption.map (Call.mk entry)).toList := by
      rcases step_cases image entry with ⟨token, image', hstep, hadded⟩ | ⟨e, hstep⟩
      · rw [hstep, hadded.lists.2.1]
        cases hrow : entry.attributeRow? <;> simp [Except.toOption, attributesIn, hrow]
      · rw [hstep]
        simp [Except.toOption, attributesIn]
    rw [hrun, ih, hstep, accepted_cons, attributesIn, attributesIn, attributesIn, List.filterMap_append,
      List.append_assoc]

/-- a call with an argument that can be encoded is accepted -/
theorem accepted_attribute (image : Image) (parent : Token) (space name : String) {value : Option String}
    {blob : List UInt8} (h : Blob.ofArgument value = .ok blob) (before later : List Entry) :
    ∃ more, accepted image (before ++ .attribute parent space name value :: later) =
      accepted image before ++ ⟨.attribute parent space name value, none⟩ :: more := by
  refine ⟨accepted ((image.addAll before).1.step (.attribute parent space name value)).1 later, ?_⟩
  rw [accepted_append, accepted_cons, step_of_added (.stringAttribute parent space name value blob h)]
  rfl

/-- where no call applies a type to a token, no attribute of the type is found on it -/
theorem find?_attributesIn_none (h : ∀ call ∈ log, call.entry.applies a parent = false) :
    (attributesIn log).find? (rowApplies a parent) = none := by
  rw [List.find?_eq_none]
  intro row hrow
  obtain ⟨call, hcall, hentry⟩ := List.mem_filterMap.1 hrow
  rw [rowApplies_of_entry hentry, h call hcall]
  exact Bool.false_ne_true

/-- the first attribute of a type on a token is that of the first call that applies it -/
theorem find?_attributesIn {before later : List Call} {call : Call} {row : AttributeRow}
    (hbefore : ∀ earlier ∈ before, earlier.entry.applies a parent = false)
    (hrow : call.entry.attributeRow? = some row) (happlies : call.entry.applies a parent = true) :
    (attributesIn (before ++ call :: later)).find? (rowApplies a parent) = some row := by
  have hsplit : attributesIn (before ++ call :: later) = attributesIn before ++ row :: attributesIn later := by
    simp [attributesIn, hrow]
  rw [hsplit, List.find?_append, find?_attributesIn_none hbefore, Option.none_or, List.find?_cons,
    rowApplies_of_entry hrow, happlies]

variable {image : Image} {m : LoadedModule} {y : MethodSymbol}

/-- the argument on a method of an image is that of the first attribute of the type on its token -/
theorem attributeArgument_attributesIn (hlog : image.attributes.toList = attributesIn log)
    (hm : m.reader = image.reader) (hp : parent.selects .methodDef = true) (hy : y.origin = m.originOf parent) :
    m.attributeArgument y a = ((attributesIn log).find? (rowApplies a parent)).elim (.ok none)
      (Blob.argument ·.value) := by
  have hparent := Token.eq_ofParts hp
  have hfind : (m.reader.attributes (.ofParts .methodDef parent.row)).find? a.isOf =
      (attributesIn log).find? (rowApplies a parent) := by
    rw [hm, ← hparent, ← hlog, attributes_eq_filter, List.find?_filter]
    refine congrArg (List.find? · image.attributes.toList) (funext fun row => ?_)
    rw [Bool.decide_and, Bool.decide_eq_true, Bool.decide_eq_true]
    rfl
  rw [LoadedModule.attributeArgument_eq (hparent ▸ hy), hfind]

/-- **Text attributes come back.** Ask any view of an image that was grown by any calls for the argument of an attribute
on a method that the view has resolved, be it the definition or that viewed as a member of an instance. If no accepted
call applied the type of the attribute to the token of the method, there is none. If the first one did so with a text
that fits or with none, the argument is what it was given, whatever was added before to others and later to any. -/
theorem text_attributes_come_back (file : String) (id : ModuleId) (entries : List Entry) (m : LoadedModule)
    (hm : m.reader = ((empty file id).addAll entries).1.reader) (asks : List LoadedModule.Ask) (token : Token)
    (x y : MethodSymbol) (hx : ((m.resolveMethod token).runFrom (m.after asks)).1 = .ok x)
    (hy : y = x ∨ ∃ t, x.asMemberOf t = .ok y) (a : AttributeType) :
    ((∀ call ∈ accepted (empty file id) entries, call.entry.applies a token = false) →
      m.attributeArgument y a = .ok none) ∧
    ∀ before later value, entries = before ++ .attribute token a.space a.name value :: later →
      (∀ call ∈ accepted (empty file id) before, call.entry.applies a token = false) → Blob.Fits value →
        m.attributeArgument y a = .ok value := by
  obtain ⟨hselects, horigin, hdefinition⟩ := LoadedModule.resolved_origin hx
  have hyorigin : y.origin = m.originOf token := by
    rcases hy with rfl | ⟨t, ht⟩
    · exact horigin
    · rw [MethodSymbol.origin_asMemberOf ht, hdefinition, horigin]
  have hattributes := attributes_addAll entries (empty file id)
  rw [show (empty file id).attributes.toList = [] from rfl, List.nil_append] at hattributes
  have hargument := attributeArgument_attributesIn hattributes hm hselects hyorigin (a := a)
  constructor
  · intro hnone
    rw [hargument, find?_attributesIn_none hnone, Option.elim_none]
  · intro before later value hentries hbefore hfits
    obtain ⟨blob, hblob, hread⟩ := Blob.argument_of_fits hfits
    obtain ⟨more, hlog⟩ := accepted_attribute (empty file id) token a.space a.name hblob before later
    have hrow : Entry.attributeRow? (.attribute token a.space a.name value) =
        some ⟨token, a.space, a.name, blob⟩ := by simp [Entry.attributeRow?, hblob, Except.toOption]
    have happlies : Entry.applies a token (.attribute token a.space a.name value) = true := by simp [Entry.applies]
    rw [hargument, hentries, hlog, find?_attributesIn hbefore hrow happlies, Option.elim_some]
    exact hread

/-- a generic type with a method that has a label, a second one, and a note without a text -/
def labelled : List Entry :=
  [.type "Demo" "Box`1" 1, .genericParams (.ofParts .typeDef 1) ["T"], .method "Open" 6, .method "Close" 6,
    .attribute (.ofParts .methodDef 2) "Demo" "LabelAttribute" (some "other"),
    .attribute (.ofParts .methodDef 1) "Demo" "LabelAttribute" (some "first"),
    .attribute (.ofParts .methodDef 1) "Demo" "LabelAttribute" (some "second"),
    .attribute (.ofParts .methodDef 1) "Demo" "NoteAttribute" none]

def labelledView : LoadedModule := ((empty "Box.dll" ⟨.replicate 16 5⟩).addAll labelled).1.view

/-- a method that is viewed as a member of an instance has the first label, the empty note, and no author -/
theorem text_attributes_come_back_sample :
    ∃ x t y, ((labelledView.resolveMethod (.ofParts .methodDef 1)).runFrom (labelledView.after [])).1 = .ok x ∧
      x.containing.construct [x.containing] = .ok t ∧ x.asMemberOf t = .ok y ∧ y.link.isSome = true ∧
      labelledView.attributeArgument y ⟨"Demo", "LabelAttribute"⟩ = .ok (some "first") ∧
      labelledView.attributeArgument y ⟨"Demo", "NoteAttribute"⟩ = .ok none ∧
      labelledView.attributeArgument y ⟨"Demo", "AuthorAttribute"⟩ = .ok none := by
  have hok : (do
      let x ← ((labelledView.resolveMethod (.ofParts .methodDef 1)).runFrom (labelledView.after [])).1
      let y ← x.asMemberOf (← x.containing.construct [x.containing])
      pure y.link.isSome : Except Error Bool).toOption = some true := by decide +kernel
  rcases hx : ((labelledView.resolveMethod (.ofParts .methodDef 1)).runFrom (labelledView.after [])).1 with _ | x
  · rw [hx] at hok
    cases hok
  rcases ht : x.containing.construct [x.containing] with _ | t
  · simp only [hx, ht, bind, Except.bind] at hok
    cases hok
  rcases hy : x.asMemberOf t with _ | y
  · simp only [hx, ht, hy, bind, Except.bind] at hok
    cases hok
  simp only [hx, ht, hy, bind, Except.bind, pure, Except.pure, Except.toOption, Option.some.injEq] at hok
  have hask := text_attributes_come_back "Box.dll" ⟨.replicate 16 5⟩ labelled labelledView rfl []
    (.ofParts .methodDef 1) x y hx (.inr ⟨t, hy⟩)
  refine ⟨x, t, y, rfl, ht, hy, hok, ?_, ?_, ?_⟩
  · refine (hask ⟨"Demo", "LabelAttribute"⟩).2 (labelled.take 5) (labelled.drop 6) (some "first") rfl
      (by decide +kernel) ?_
    rintro s ⟨⟩
    decide +kernel
  · exact (hask ⟨"Demo", "NoteAttribute"⟩).2 (labelled.take 7) [] none rfl (by decide +kernel) Blob.fits_none
  · exact (hask ⟨"Demo", "AuthorAttribute"⟩).1 (by decide +kernel)

end Image

end FrameSymbols
