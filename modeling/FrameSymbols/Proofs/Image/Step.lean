/-
What one entry does to an image.

An entry is accepted if what it refers to is there and its argument can be encoded, and then it leaves behind one of the
images that `Added` lists (`step_of_added`). An entry that is refused leaves the image as it was: each call checks
everything before it changes the first table (`runFrom_add`), so no call stops halfway (`step_cases`, `step_error`).
-/
import FrameSymbols.Image

namespace FrameSymbols.Image

def withType (image : Image) (space name : String) (flags : UInt32) : Image :=
  { image with types := image.types.push ⟨flags, name, space, count image.methods + 1, []⟩ }

def lastType (image : Image) : Token := .ofParts .typeDef (count image.types)

/-- what an accepted entry leaves behind -/
inductive Added (image : Image) : Entry → Image → Option Token → Prop where
  | assembly (name : String) : Added image (.assembly name) { image with assembly := some name } none
  | file (name : String) : Added image (.file name) { image with files := image.files.push name } none
  | type (space name : String) (flags : UInt32) :
      Added image (.type space name flags) (image.withType space name flags) (some (image.withType space name flags).lastType)
  | nestedType (encloser : Token) (name : String) (flags : UInt32) (selects : encloser.selects .typeDef = true)
      (row_ne : encloser.row ≠ 0) (row_le : encloser.row.toNat ≤ image.types.size) :
      Added image (.nestedType encloser name flags)
        { image.withType "" name flags with
          nesting := image.nesting.push ((image.withType "" name flags).lastType.row, encloser.row) }
        (some (image.withType "" name flags).lastType)
  | method (name : String) (flags : UInt32) (some_type : image.types.size ≠ 0) :
      Added image (.method name flags) { image with methods := image.methods.push ⟨flags, name, []⟩ }
        (some (.ofParts .methodDef (count (image.methods.push ⟨flags, name, []⟩))))
  | methodParams (owner : Token) (names : List String) (selects : owner.selects .methodDef = true)
      (row_ne : owner.row ≠ 0) (row_le : owner.row.toNat ≤ image.methods.size) :
      Added image (.genericParams owner names)
        { image with methods := image.methods.modify (owner.row.toNat - 1) ({ · with genericParams := names }) } none
  | typeParams (owner : Token) (names : List String) (selects : owner.selects .typeDef = true)
      (row_ne : owner.row ≠ 0) (row_le : owner.row.toNat ≤ image.types.size) :
      Added image (.genericParams owner names)
        { image with types := image.types.modify (owner.row.toNat - 1) ({ · with genericParams := names }) } none
  | stringAttribute (parent : Token) (space name : String) (argument : Option String) (value : List UInt8)
      (encoded : Blob.ofArgument argument = .ok value) :
      Added image (.attribute parent space name argument)
        { image with attributes := image.attributes.push ⟨parent, space, name, value⟩ } none
  | blobAttribute (parent : Token) (space name : String) (value : List UInt8) :
      Added image (.attributeBlob parent space name value)
        { image with attributes := image.attributes.push ⟨parent, space, name, value⟩ } none

theorem typeRowOf_eq_ok_iff {image : Image} {token : Token} {row : UInt32} :
    image.typeRowOf token = .ok row ↔
      token.selects .typeDef = true ∧ token.row ≠ 0 ∧ token.row.toNat ≤ image.types.size ∧ row = token.row := by
  unfold typeRowOf
  split
  · next hc => simp [hc, eq_comm]
  · next hc =>
    constructor
    · intro h
      cases h
    · rintro ⟨hs, h0, hle, -⟩
      exact absurd ⟨hs, h0, hle⟩ hc

/-! ## Calls -/

theorem runFrom_addNestedType (image : Image) (encloser : Token) (name : String) (flags : UInt32) :
    (addNestedType encloser name flags).runFrom image = match image.typeRowOf encloser with
      | .ok row => (.ok (image.withType "" name flags).lastType,
          { image.withType "" name flags with
            nesting := image.nesting.push ((image.withType "" name flags).lastType.row, row) })
      | .error e => (.error e, image) := by
  unfold addNestedType
  rw [Action.runFrom_bind]
  simp only [Action.runFrom_get, Action.runFrom_bind, Action.runFrom_lift]
  cases image.typeRowOf encloser <;> rfl

theorem runFrom_addMethod (image : Image) (name : String) (flags : UInt32) :
    (addMethod name flags).runFrom image =
      if image.types.isEmpty then (.error (.malformed .methodWithoutType), image)
      else (.ok (.ofParts .methodDef (count (image.methods.push ⟨flags, name, []⟩))),
        { image with methods := image.methods.push ⟨flags, name, []⟩ }) := by
  unfold addMethod
  rw [Action.runFrom_bind]
  simp only [Action.runFrom_get]
  split <;> rfl

theorem runFrom_setGenericParams (image : Image) (owner : Token) (names : List String) :
    (setGenericParams owner names).runFrom image =
      if owner.selects .methodDef then
        if owner.row ≠ 0 ∧ owner.row.toNat ≤ image.methods.size then
          (.ok (), { image with
            methods := image.methods.modify (owner.row.toNat - 1) ({ · with genericParams := names }) })
        else (.error (.malformed (.unknownMethod owner)), image)
      else match image.typeRowOf owner with
        | .ok row => (.ok (), { image with
            types := image.types.modify (row.toNat - 1) ({ · with genericParams := names }) })
        | .error e => (.error e, image) := by
  unfold setGenericParams
  rw [Action.runFrom_bind]
  simp only [Action.runFrom_get]
  split
  · split <;> rfl
  · rw [Action.runFrom_bind, Action.runFrom_lift]
    cases image.typeRowOf owner <;> rfl

/-- an entry is accepted and leaves behind what `Added` says, or it is refused and leaves the image as it is -/
theorem runFrom_add (image : Image) (entry : Entry) :
    (∃ token image', (add entry).runFrom image = (.ok token, image') ∧ Added image entry image' token) ∨
      ∃ e, (add entry).runFrom image = (.error e, image) := by
  rcases entry with name | name | ⟨space, name, flags⟩ | ⟨encloser, name, flags⟩ | ⟨name, flags⟩ | ⟨owner, names⟩ |
    ⟨parent, space, name, argument⟩ | ⟨parent, space, name, value⟩
  · exact .inl ⟨_, _, rfl, .assembly name⟩
  · exact .inl ⟨_, _, rfl, .file name⟩
  · exact .inl ⟨_, _, rfl, .type space name flags⟩
  · rw [add, Action.runFrom_map, runFrom_addNestedType]
    cases hr : image.typeRowOf encloser with
    | error e => exact .inr ⟨e, rfl⟩
    | ok row =>
      obtain ⟨hs, h0, hle, rfl⟩ := typeRowOf_eq_ok_iff.1 hr
      exact .inl ⟨_, _, rfl, .nestedType encloser name flags hs h0 hle⟩
  · rw [add, Action.runFrom_map, runFrom_addMethod]
    by_cases hempty : image.types.isEmpty = true
    · rw [if_pos hempty]
      exact .inr ⟨_, rfl⟩
    · rw [if_neg hempty]
      exact .inl ⟨_, _, rfl, .method name flags (by simpa using hempty)⟩
  · rw [add, Action.runFrom_bind, runFrom_setGenericParams]
    by_cases hs : owner.selects .methodDef = true
    · rw [if_pos hs]
      by_cases hrow : owner.row ≠ 0 ∧ owner.row.toNat ≤ image.methods.size
      · rw [if_pos hrow]
        exact .inl ⟨_, _, rfl, .methodParams owner names hs hrow.1 hrow.2⟩
      · rw [if_neg hrow]
        exact .inr ⟨_, rfl⟩
    · rw [if_neg hs]
      cases hr : image.typeRowOf owner with
      | error e => exact .inr ⟨e, rfl⟩
      | ok row =>
        obtain ⟨hs', h0, hle, rfl⟩ := typeRowOf_eq_ok_iff.1 hr
        exact .inl ⟨_, _, rfl, .typeParams owner names hs' h0 hle⟩
  · rw [add, Action.runFrom_bind, Action.runFrom_lift]
    cases hv : Blob.ofArgument argument with
    | error e => exact .inr ⟨e, rfl⟩
    | ok value => exact .inl ⟨_, _, rfl, .stringAttribute parent space name argument value hv⟩
  · exact .inl ⟨_, _, rfl, .blobAttribute parent space name value⟩

theorem Added.add {image image' : Image} {entry : Entry} {token : Option Token} (h : Added image entry image' token) :
    (Image.add entry).runFrom image = (.ok token, image') := by
  have htype : ∀ {owner : Token}, owner.selects .typeDef = true → owner.row ≠ 0 →
      owner.row.toNat ≤ image.types.size → image.typeRowOf owner = .ok owner.row :=
    fun hs h0 hle => typeRowOf_eq_ok_iff.2 ⟨hs, h0, hle, rfl⟩
  cases h with
  | nestedType encloser name flags selects row_ne row_le =>
    rw [Image.add, Action.runFrom_map, runFrom_addNestedType, htype selects row_ne row_le]
    rfl
  | method name flags some_type =>
    rw [Image.add, Action.runFrom_map, runFrom_addMethod, if_neg (by simpa using some_type)]
    rfl
  | methodParams owner names selects row_ne row_le =>
    rw [Image.add, Action.runFrom_bind, runFrom_setGenericParams, if_pos selects, if_pos ⟨row_ne, row_le⟩]
    rfl
  | typeParams owner names selects row_ne row_le =>
    have hs : ¬owner.selects .methodDef = true := fun hs => by
      rw [Token.selects, beq_iff_eq] at selects hs
      exact absurd (selects.symm.trans hs) (by decide)
    rw [Image.add, Action.runFrom_bind, runFrom_setGenericParams, if_neg hs, htype selects row_ne row_le]
    rfl
  | stringAttribute parent space name argument value encoded =>
    rw [Image.add, encoded]
    rfl
  | _ => rfl

/-- what a call answers and leaves behind: an accepted one what `Added` says, and one that is refused the image as it is -/
theorem step_cases (image : Image) (entry : Entry) :
    (∃ token image', image.step entry = (image', .ok token) ∧ Added image entry image' token) ∨
      ∃ e, image.step entry = (image, .error e) := by
  unfold step
  rcases runFrom_add image entry with ⟨token, image', hrun, hadded⟩ | ⟨e, hrun⟩
  · exact .inl ⟨token, image', by rw [hrun]; rfl, hadded⟩
  · exact .inr ⟨e, by rw [hrun]; rfl⟩

theorem step_of_added {image image' : Image} {entry : Entry} {token : Option Token} (h : Added image entry image' token) :
    image.step entry = (image', .ok token) := by
  rw [step, h.add]
  rfl

/-- a call that fails leaves the image as it is -/
theorem step_error {image : Image} {entry : Entry} {e : Error} (h : (image.step entry).2 = .error e) :
    (image.step entry).1 = image := by
  rcases step_cases image entry with ⟨token, image', hstep, -⟩ | ⟨e', hstep⟩
  · rw [hstep] at h
    cases h
  · rw [hstep]

end FrameSymbols.Image
