/-
Which definition a serialized name leads to.

Generic arguments never decide whether a name is found, nor which definition is behind the type that is found
(`typeForName_definition`): that is the row which the tables give to the name. So once a type is remembered, a name
leads to it exactly when it names its row (`leadsTo_iff`), whatever else is remembered.
-/
import FrameSymbols.Proofs.Module.Coherence

namespace FrameSymbols

theorem Except.eq_ok_of_toOption {α : Type} {x : Except Error α} {a : α} (h : x.toOption = some a) : x = .ok a := by
  cases x with
  | error e => cases h
  | ok b => cases h; rfl

namespace LoadedModule

variable {m : LoadedModule} {memory : Memory}

/-- arguments that cannot be found are no failure -/
theorem typesNamed_answers (ns : List TypeName) (memory : Memory) :
    ∃ found, ((m.typesNamed ns).runFrom memory).1 = .ok found := by
  induction ns generalizing memory with
  | nil => exact ⟨some [], by unfold typesNamed; rfl⟩
  | cons n ns ih =>
    unfold typesNamed
    rw [Action.runFrom_bind, Action.runFrom_toOption]
    rcases (m.typeNamed n).runFrom memory with ⟨_ | _ | t, memory'⟩
    · exact ⟨none, rfl⟩
    · exact ⟨none, rfl⟩
    · obtain ⟨found, hf⟩ := ih memory'
      exact ⟨found.map (t :: ·), by simp [Except.toOption, Action.runFrom_map, hf, Except.map]⟩

/-- a definition with the types that names lead to for its arguments, if there are as many as it takes -/
def instanceOf (m : LoadedModule) (memory : Memory) (d : TypeSymbol) (args : List TypeName) : TypeSymbol :=
  match ((m.typesNamed args).runFrom memory).1 with
  | .ok (some ts) => (d.construct ts).toOption.getD d
  | _ => d

theorem definition_instanceOf (m : LoadedModule) (memory : Memory) (d : TypeSymbol) (args : List TypeName) :
    (m.instanceOf memory d args).definition = d.definition := by
  unfold instanceOf
  split
  · exact d.definition_construct _
  · rfl

theorem instanceOf_nil (m : LoadedModule) (memory : Memory) (d : TypeSymbol) : m.instanceOf memory d [] = d := by
  unfold instanceOf typesNamed
  exact d.construct_nil

/-- a name leads to the definition of its row, with its arguments put in -/
theorem runFrom_typeNamed (m : LoadedModule) (n : TypeName) (memory : Memory) :
    (m.typeNamed n).runFrom memory = match m.rowNamed n with
      | none => (.ok none, memory)
      | some row => match (m.typeOfRow row).runFrom memory with
        | (.error e, after) => (.error e, after)
        | (.ok d, after) => (.ok (some (m.instanceOf after d n.args)), ((m.typesNamed n.args).runFrom after).2) := by
  obtain ⟨space, top, nested, args, suffixes, assembly⟩ := n
  unfold typeNamed
  cases m.rowNamed ⟨space, top, nested, args, suffixes, assembly⟩ with
  | none => rfl
  | some row =>
    simp only [Action.runFrom_bind]
    rcases (m.typeOfRow row).runFrom memory with ⟨_ | d, after⟩
    · rfl
    · cases args with
      | nil =>
        simp only [instanceOf_nil, typesNamed]
        rfl
      | cons arg more =>
        obtain ⟨found, hf⟩ := m.typesNamed_answers (arg :: more) after
        unfold instanceOf
        rcases hrun : (m.typesNamed (arg :: more)).runFrom after with ⟨answer, after'⟩
        rw [hrun] at hf
        subst hf
        simp only [Action.runFrom_bind, hrun]
        cases found <;> rfl

theorem typeNamed_definition (n : TypeName) (memory : Memory) :
    ((m.typeNamed n).runFrom memory).1.toOption.join.map TypeSymbol.definition =
      (m.rowNamed n).bind fun row => ((m.typeOfRow row).runFrom memory).1.toOption.map TypeSymbol.definition := by
  rw [runFrom_typeNamed]
  cases m.rowNamed n with
  | none => rfl
  | some row =>
    simp only [Option.bind_some]
    rcases (m.typeOfRow row).runFrom memory with ⟨_ | d, after⟩
    · rfl
    · exact congrArg some (m.definition_instanceOf after d n.args)

/-- the row that a text names, if it is a type name and the module has the type -/
def rowOfName (m : LoadedModule) (text : String) : Option UInt32 := (TypeName.parse text).toOption.bind m.rowNamed

theorem typeForName_toOption (text : String) (memory : Memory) :
    ((m.typeForName text).runFrom memory).1.toOption =
      (TypeName.parse text).toOption.bind fun n => ((m.typeNamed n).runFrom memory).1.toOption.join := by
  unfold typeForName
  rw [Action.runFrom_bind, Action.runFrom_lift]
  cases TypeName.parse text with
  | error e => rfl
  | ok n =>
    simp only [Action.runFrom_bind]
    rcases hrun : (m.typeNamed n).runFrom memory with ⟨_ | _ | t, memory'⟩ <;> simp [Except.toOption, hrun]

/-- a name is found if it names a row and the row can be decoded, and then the definition is that of the row -/
theorem typeForName_definition (text : String) (memory : Memory) :
    ((m.typeForName text).runFrom memory).1.toOption.map TypeSymbol.definition =
      (m.rowOfName text).bind fun row => ((m.typeOfRow row).runFrom memory).1.toOption.map TypeSymbol.definition := by
  rw [typeForName_toOption, rowOfName, Option.map_bind, Option.bind_assoc]
  congr 1
  funext n
  exact typeNamed_definition n memory

/-- whether a text leads to a type with the same definition as `t` -/
def leadsTo (m : LoadedModule) (memory : Memory) (t : TypeSymbol) (text : String) : Bool :=
  match ((m.typeForName text).runFrom memory).1 with
  | .ok u => u.definition.same t.definition
  | .error _ => false

theorem runFrom_typeOfRow_of_remembered {row : UInt32} {t : TypeSymbol}
    (ht : memory.type? (.ofParts .typeDef row) = some t) : (m.typeOfRow row).runFrom memory = (.ok t, memory) := by
  rw [typeOfRow, runFrom_typeSymbol_succ, ht]

/-- a text leads to a remembered type if and only if it names its row -/
theorem leadsTo_iff (h : m.Coherent memory) {token : Token} {t : TypeSymbol} (ht : memory.type? token = some t)
    (text : String) :
    m.leadsTo memory t text = true ↔ ∃ row, m.rowOfName text = some row ∧ Token.ofParts .typeDef row = token := by
  have hd := m.typeForName_definition text memory
  have htd : t.definition = t := h.type_definition ht
  have hto : t.origin = m.originOf token := h.type_origin ht
  unfold leadsTo
  rw [htd]
  constructor
  · intro hs
    cases hu : ((m.typeForName text).runFrom memory).1 with
    | error e => rw [hu] at hs; cases hs
    | ok u =>
      rw [hu] at hs hd
      obtain ⟨row, hrow, hrest⟩ := Option.bind_eq_some_iff.1 hd.symm
      obtain ⟨d, hok, hdu⟩ := Option.map_eq_some_iff.1 hrest
      have hdr := (typeOfRow_sound row h).answers d (Except.eq_ok_of_toOption hok)
      have hafter := (typeOfRow_sound row h).keeps
      have huo : u.definition.origin = m.originOf (.ofParts .typeDef row) := by
        rw [← hdu, hafter.type_definition hdr, hafter.type_origin hdr]
      have ho := TypeSymbol.origin_of_same hs
      rw [huo, hto] at ho
      exact ⟨row, hrow, originOf_inj ho⟩
  · rintro ⟨row, hrow, rfl⟩
    rw [hrow, Option.bind_some, runFrom_typeOfRow_of_remembered ht] at hd
    cases hu : ((m.typeForName text).runFrom memory).1 with
    | error e => rw [hu] at hd; cases hd
    | ok u =>
      rw [hu] at hd
      have hdu : u.definition = t := by simpa [Except.toOption, htd] using hd
      simp only [hdu]
      exact t.same_refl

end LoadedModule

end FrameSymbols
