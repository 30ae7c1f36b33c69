/-
An image and the calls that grew it.

The calls that were accepted make a log. What a call adds depends on the log before it only through how many types and
methods were added (`typesIn`, `methodsIn`), and through the last generic parameters set for an owner (`paramsSet`). The
tables of types and methods are kept in the same way (`Table`, `Table.Holds`): each accepted call adds a row, sets the
parameters of one, or leaves the rows as they are (`Table.Step`). `refines_step` says that every accepted call keeps what
the log says of the image (`Refines`), and `refines_addAll` that a whole sequence of calls does.
-/
import FrameSymbols.Proofs.Image.Rows
import FrameSymbols.Proofs.Image.Step
import FrameSymbols.Proofs.Token

namespace FrameSymbols.Image

/-! ## Logs -/

/-- a call that was accepted, and the token that it gave -/
structure Call where
  entry : Entry
  token : Option Token

/-- the calls that were accepted, in order -/
def accepted (image : Image) (entries : List Entry) : List Call :=
  (entries.zip (image.addAll entries).2).filterMap fun p => p.2.toOption.map (Call.mk p.1)

namespace Entry

def isType : Entry → Bool
  | .type _ _ _ | .nestedType _ _ _ => true
  | _ => false

def isMethod : Entry → Bool
  | .method _ _ => true
  | _ => false

def isNestedType : Entry → Bool
  | .nestedType _ _ _ => true
  | _ => false

/-- the row that is added for a type whose methods start at `start`, with the generic parameters that it has in the end -/
def typeRow? (start : UInt32) (params : List String) : Entry → Option TypeRow
  | .type space name flags => some ⟨flags, name, space, start, params⟩
  | .nestedType _ name flags => some ⟨flags, name, "", start, params⟩
  | _ => none

/-- the row that is added for a method, with the generic parameters that it has in the end -/
def methodRow? (params : List String) : Entry → Option MethodRow
  | .method name flags => some ⟨flags, name, params⟩
  | _ => none

def paramsOf? (owner : Token) : Entry → Option (List String)
  | .genericParams other names => if other = owner then some names else none
  | _ => none

/-- the attribute that is added, if its argument can be encoded -/
def attributeRow? : Entry → Option AttributeRow
  | .attribute parent space name argument => (Blob.ofArgument argument).toOption.map (⟨parent, space, name, ·⟩)
  | .attributeBlob parent space name value => some ⟨parent, space, name, value⟩
  | _ => none

def fileName? : Entry → Option String
  | .file name => some name
  | _ => none

def assemblyName? : Entry → Option String
  | .assembly name => some name
  | _ => none

theorem isSome_typeRow? (entry : Entry) (start : UInt32) (params : List String) :
    (entry.typeRow? start params).isSome = entry.isType := by
  cases entry <;> rfl

theorem isSome_methodRow? (entry : Entry) (params : List String) :
    (entry.methodRow? params).isSome = entry.isMethod := by
  cases entry <;> rfl

end Entry

def typesIn (log : List Call) : Nat := log.countP (·.entry.isType)

def methodsIn (log : List Call) : Nat := log.countP (·.entry.isMethod)

def nestedTypesIn (log : List Call) : Nat := log.countP (·.entry.isNestedType)

/-- what an entry refers to was added, and its argument can be encoded -/
def Entry.Fits (log : List Call) : Entry → Prop
  | .nestedType encloser _ _ => encloser.selects .typeDef = true ∧ encloser.row ≠ 0 ∧ encloser.row.toNat ≤ typesIn log
  | .method _ _ => typesIn log ≠ 0
  | .genericParams owner _ => owner.row ≠ 0 ∧ (owner.selects .methodDef = true ∧ owner.row.toNat ≤ methodsIn log ∨
      owner.selects .typeDef = true ∧ owner.row.toNat ≤ typesIn log)
  | .attribute _ _ _ argument => ∃ value, Blob.ofArgument argument = .ok value
  | _ => True

def attributesIn (log : List Call) : List AttributeRow := log.filterMap (·.entry.attributeRow?)

def filesIn (log : List Call) : List String := log.filterMap (·.entry.fileName?)

/-- the assembly that was named last -/
def assemblyIn (log : List Call) : Option String := (log.filterMap (·.entry.assemblyName?)).getLast?

/-- the generic parameters that were set last for an owner -/
def paramsSet (log : List Call) (owner : Token) : List String :=
  ((log.filterMap (·.entry.paramsOf? owner)).getLast?).getD []

/-- the row behind so many others -/
def rowAfter (n : Nat) : UInt32 := UInt32.ofNat (n + 1)

/-- the row of a type that was added nested in the type of the row `outer` -/
def NestedAt (log : List Call) (row outer : UInt32) : Prop :=
  ∃ before encloser name flags token later, log = before ++ ⟨.nestedType encloser name flags, token⟩ :: later ∧
    row = rowAfter (typesIn before) ∧ outer = encloser.row

/-- a position in a log that got one more call is the new one or one from before -/
theorem concat_eq_append_cons {log before later : List Call} {new call : Call} :
    log ++ [new] = before ++ call :: later ↔
      (before = log ∧ call = new ∧ later = []) ∨ ∃ more, later = more ++ [new] ∧ log = before ++ call :: more := by
  constructor
  · intro h
    rcases List.eq_nil_or_concat' later with rfl | ⟨more, last, rfl⟩
    · obtain ⟨rfl, hcall⟩ := List.append_inj' h rfl
      exact .inl ⟨rfl, (List.cons.inj hcall).1.symm, rfl⟩
    · rw [← List.cons_append, ← List.append_assoc] at h
      obtain ⟨rfl, hlast⟩ := List.append_inj' h rfl
      exact .inr ⟨more, by rw [(List.cons.inj hlast).1], rfl⟩
  · rintro (⟨rfl, rfl, rfl⟩ | ⟨more, rfl, rfl⟩)
    · rfl
    · simp

theorem typesIn_append (log more : List Call) : typesIn (log ++ more) = typesIn log + typesIn more :=
  List.countP_append

theorem methodsIn_append (log more : List Call) : methodsIn (log ++ more) = methodsIn log + methodsIn more :=
  List.countP_append

theorem filterMap_concat {α : Type} (f : Call → Option α) (log : List Call) (new : Call) :
    (log ++ [new]).filterMap f = log.filterMap f ++ (f new).toList := by
  rw [List.filterMap_append]
  cases h : f new <;> simp [h]

theorem toNat_rowAfter {n : Nat} (h : n + 1 < 2 ^ 32) : (rowAfter n).toNat = n + 1 := by
  rw [rowAfter, UInt32.toNat_ofNat']
  exact Nat.mod_eq_of_lt h

theorem paramsSet_concat (log : List Call) (new : Call) (owner : Token) :
    paramsSet (log ++ [new]) owner = (new.entry.paramsOf? owner).getD (paramsSet log owner) := by
  unfold paramsSet
  rw [filterMap_concat]
  cases new.entry.paramsOf? owner <;> simp

/-! ## Tables with generic parameters -/

/-- how calls fill the table of types or that of methods -/
structure Table (α : Type) where
  id : TableId
  /-- whether an entry adds a row -/
  adds : Entry → Bool
  /-- the row that an entry adds behind the log -/
  row? : List Call → Entry → Option α
  /-- replaces the generic parameters of a row -/
  withParams : List String → α → α
  isSome_row? : ∀ log entry, (row? log entry).isSome = adds entry
  withParams_nil : ∀ {log entry row}, row? log entry = some row → withParams [] row = row
  withParams_withParams : ∀ names other row, withParams names (withParams other row) = withParams names row

namespace Table

variable {α : Type} (T : Table α)

def size (log : List Call) : Nat := log.countP (T.adds ·.entry)

/-- the token of the row that comes behind a log -/
def tokenAfter (log : List Call) : Token := .ofParts T.id (rowAfter (T.size log))

/-- every row that was added is there, with the token that was given for it and the generic parameters set last -/
structure Holds (log : List Call) (rows : Array α) : Prop where
  size : rows.size = T.size log
  rowAt : ∀ before call later, log = before ++ call :: later → ∀ row, T.row? before call.entry = some row →
    call.token = some (T.tokenAfter before) ∧
      rows[T.size before]? = some (T.withParams (paramsSet log (T.tokenAfter before)) row)
  /-- no parameters were set for a row that is not there -/
  params : ∀ owner : Token, owner.selects T.id = true → T.size log < owner.row.toNat → paramsSet log owner = []

/-- what a call does to the rows -/
inductive Step (log : List Call) (call : Call) (rows rows' : Array α) : Prop where
  /-- a row is added, and its token given -/
  | added (row : α) (made : T.row? log call.entry = some row) (free : ∀ owner, call.entry.paramsOf? owner = none)
      (pushed : rows' = rows.push row) (token : call.token = some (.ofParts T.id (Image.count rows')))
  /-- the generic parameters of a row are set -/
  | set (owner : Token) (names : List String) (entry : call.entry = .genericParams owner names)
      (idle : T.adds call.entry = false) (selects : owner.selects T.id = true) (row_ne : owner.row ≠ 0)
      (row_le : owner.row.toNat ≤ rows.size)
      (modified : rows' = rows.modify (owner.row.toNat - 1) (T.withParams names))
  /-- the rows stay as they are -/
  | kept (idle : T.adds call.entry = false)
      (free : ∀ owner : Token, owner.selects T.id = true → call.entry.paramsOf? owner = none) (same : rows' = rows)

variable {T}

theorem size_concat (log : List Call) (call : Call) :
    T.size (log ++ [call]) = T.size log + if T.adds call.entry then 1 else 0 := by
  rw [size, List.countP_append, List.countP_singleton]
  rfl

theorem size_split {log before later : List Call} {call : Call} (h : log = before ++ call :: later) :
    T.size log = T.size before + (if T.adds call.entry then 1 else 0) + T.size later := by
  rw [h, size, size, size, List.countP_append, List.countP_cons]
  omega

theorem size_lt_of_split {log before later : List Call} {call : Call} {row : α} (h : log = before ++ call :: later)
    (hrow : T.row? before call.entry = some row) : T.size before < T.size log := by
  have hadds : T.adds call.entry = true := by rw [← T.isSome_row? before, hrow]; rfl
  rw [size_split h, hadds, if_pos rfl]
  omega

theorem row?_eq_none {log : List Call} {entry : Entry} (h : T.adds entry = false) : T.row? log entry = none := by
  rw [← Option.isNone_iff_eq_none, ← Option.isSome_eq_false_iff, T.isSome_row?, h]

theorem holds_nil : T.Holds [] #[] where
  size := rfl
  rowAt := fun before call later h => by simp at h
  params := fun _ _ _ => rfl

theorem selects_tokenAfter (log : List Call) : (T.tokenAfter log).selects T.id = true := Token.selects_ofParts _ _

theorem toNat_row_tokenAfter {log : List Call} (h : T.size log + 1 < 2 ^ 24) :
    (T.tokenAfter log).row.toNat = T.size log + 1 := by
  have hn := toNat_rowAfter (n := T.size log) (by omega)
  have hle : rowAfter (T.size log) ≤ 0xFFFFFF :=
    UInt32.le_iff_toNat_le.2 (by simp only [hn, UInt32.reduceToNat]; omega)
  rw [tokenAfter, Token.row_ofParts_of_le hle, hn]

theorem eq_tokenAfter_iff {log : List Call} {owner : Token} (h : T.size log + 1 < 2 ^ 24)
    (hs : owner.selects T.id = true) : owner = T.tokenAfter log ↔ owner.row.toNat = T.size log + 1 := by
  constructor
  · rintro rfl
    exact toNat_row_tokenAfter h
  · intro hrow
    rw [← toNat_row_tokenAfter h, UInt32.toNat_inj] at hrow
    rw [Token.eq_ofParts hs, hrow, ← Token.eq_ofParts (selects_tokenAfter log)]

section Calls

variable {log : List Call} {call : Call} {rows rows' : Array α}

theorem paramsSet_concat_of_free {owner : Token} (h : call.entry.paramsOf? owner = none) :
    paramsSet (log ++ [call]) owner = paramsSet log owner := by
  rw [paramsSet_concat, h]
  rfl

theorem Holds.push (h : T.Holds log rows) (hsize : T.size (log ++ [call]) < 2 ^ 24) {row : α}
    (made : T.row? log call.entry = some row) (free : ∀ owner, call.entry.paramsOf? owner = none)
    (token : call.token = some (.ofParts T.id (Image.count (rows.push row)))) :
    T.Holds (log ++ [call]) (rows.push row) := by
  have hn := size_concat (T := T) log call
  have hadds : T.adds call.entry = true := by rw [← T.isSome_row? log, made]; rfl
  rw [hadds, if_pos rfl] at hn
  refine ⟨by rw [Array.size_push, h.size, hn], ?_, ?_⟩
  · intro before other later hsplit row' hrow'
    rw [paramsSet_concat_of_free (free _), Array.getElem?_push, h.size]
    rcases concat_eq_append_cons.1 hsplit with ⟨rfl, rfl, rfl⟩ | ⟨more, rfl, hlog⟩
    · rw [made, Option.some.injEq] at hrow'
      subst hrow'
      -- parameters are set for rows that are there only, so the new row has none yet
      have hnew := h.params (T.tokenAfter before) (selects_tokenAfter before)
        (by rw [toNat_row_tokenAfter (by omega)]; omega)
      rw [hnew, T.withParams_nil made, if_pos rfl, token, Image.count, Array.size_push, h.size]
      exact ⟨rfl, rfl⟩
    · have hlt := size_lt_of_split hlog hrow'
      rw [if_neg (by omega)]
      exact h.rowAt before other more hlog row' hrow'
  · intro owner hs hlt
    rw [paramsSet_concat_of_free (free _)]
    exact h.params owner hs (by omega)

theorem Holds.modify (h : T.Holds log rows) (hsize : T.size (log ++ [call]) < 2 ^ 24) {owner : Token}
    {names : List String} (entry : call.entry = .genericParams owner names) (idle : T.adds call.entry = false)
    (selects : owner.selects T.id = true) (row_ne : owner.row ≠ 0) (row_le : owner.row.toNat ≤ rows.size) :
    T.Holds (log ++ [call]) (rows.modify (owner.row.toNat - 1) (T.withParams names)) := by
  have hn := size_concat (T := T) log call
  rw [idle, if_neg Bool.false_ne_true, Nat.add_zero] at hn
  have hrow0 : owner.row.toNat ≠ 0 := fun h0 => row_ne (UInt32.toNat_inj.1 h0)
  have hset : ∀ other, paramsSet (log ++ [call]) other = if owner = other then names else paramsSet log other := by
    intro other
    rw [paramsSet_concat, entry, Entry.paramsOf?]
    split <;> rfl
  refine ⟨by rw [Array.size_modify, h.size, hn], ?_, ?_⟩
  · intro before other later hsplit row hrow
    rcases concat_eq_append_cons.1 hsplit with ⟨rfl, rfl, rfl⟩ | ⟨more, rfl, hlog⟩
    · rw [row?_eq_none idle] at hrow
      cases hrow
    · have hlt := size_lt_of_split hlog hrow
      obtain ⟨htoken, hold⟩ := h.rowAt before other more hlog row hrow
      refine ⟨htoken, ?_⟩
      have howner := @eq_tokenAfter_iff _ T before owner (by omega) selects
      rw [Array.getElem?_modify, hold, hset]
      by_cases ho : owner = T.tokenAfter before
      · rw [if_pos ho, if_pos (by have := howner.1 ho; omega), Option.map_some, T.withParams_withParams]
      · rw [if_neg ho, if_neg (fun hi => ho (howner.2 (by omega)))]
  · intro other hs hlt
    have hne : owner ≠ other := by
      rintro rfl
      rw [h.size] at row_le
      omega
    rw [hset, if_neg hne]
    exact h.params other hs (by omega)

theorem Holds.keep (h : T.Holds log rows) (idle : T.adds call.entry = false)
    (free : ∀ owner : Token, owner.selects T.id = true → call.entry.paramsOf? owner = none) :
    T.Holds (log ++ [call]) rows := by
  have hn := size_concat (T := T) log call
  rw [idle, if_neg Bool.false_ne_true, Nat.add_zero] at hn
  refine ⟨h.size.trans hn.symm, ?_, ?_⟩
  · intro before other later hsplit row hrow
    rcases concat_eq_append_cons.1 hsplit with ⟨rfl, rfl, rfl⟩ | ⟨more, rfl, hlog⟩
    · rw [row?_eq_none idle] at hrow
      cases hrow
    · rw [paramsSet_concat_of_free (free _ (selects_tokenAfter before))]
      exact h.rowAt before other more hlog row hrow
  · intro owner hs hlt
    rw [paramsSet_concat_of_free (free owner hs)]
    exact h.params owner hs (by omega)

/-- a call keeps the rows as the log says, as long as they fit into tokens -/
theorem Step.holds (s : T.Step log call rows rows') (h : T.Holds log rows) (hsize : T.size (log ++ [call]) < 2 ^ 24) :
    T.Holds (log ++ [call]) rows' := by
  cases s with
  | added row made free pushed token =>
    subst pushed
    exact h.push hsize made free token
  | set owner names entry idle selects row_ne row_le modified =>
    subst modified
    exact h.modify hsize entry idle selects row_ne row_le
  | kept idle free same =>
    subst same
    exact h.keep idle free

end Calls

end Table

/-! ## What a call does -/

/-- the table of types: the methods of a type start behind those that are there -/
def typeTable : Table TypeRow where
  id := .typeDef
  adds := Entry.isType
  row? log entry := entry.typeRow? (rowAfter (methodsIn log)) []
  withParams names row := { row with genericParams := names }
  isSome_row? _ entry := entry.isSome_typeRow? _ _
  withParams_nil {_ entry _} h := by cases entry <;> cases h <;> rfl
  withParams_withParams _ _ _ := rfl

def methodTable : Table MethodRow where
  id := .methodDef
  adds := Entry.isMethod
  row? _ entry := entry.methodRow? []
  withParams names row := { row with genericParams := names }
  isSome_row? _ entry := entry.isSome_methodRow? _
  withParams_nil {_ entry _} h := by
    cases entry with
    | method name flags =>
      cases h
      rfl
    | _ => cases h
  withParams_withParams _ _ _ := rfl

variable {image image' : Image} {entry : Entry} {token : Option Token} {log : List Call}

theorem paramsOf?_of_table {owner other : Token} {table table' : TableId} (hne : table.selector ≠ table'.selector)
    (ho : owner.selects table = true) (ho' : other.selects table' = true) (names : List String) :
    (Entry.genericParams owner names).paramsOf? other = none := by
  refine if_neg ?_
  rintro rfl
  rw [Token.selects, beq_iff_eq] at ho ho'
  exact hne (ho.symm.trans ho')

theorem Added.typeStep (h : Added image entry image' token) (hm : image.methods.size = methodsIn log) :
    typeTable.Step log ⟨entry, token⟩ image.types image'.types := by
  have hstart : count image.methods + 1 = rowAfter (methodsIn log) := by
    rw [count, hm, rowAfter, UInt32.ofNat_add]
    rfl
  cases h with
  | type space name flags =>
    exact .added ⟨flags, name, space, rowAfter (methodsIn log), []⟩ rfl (fun _ => rfl) (by rw [withType, hstart]) rfl
  | nestedType encloser name flags selects row_ne row_le =>
    exact .added ⟨flags, name, "", rowAfter (methodsIn log), []⟩ rfl (fun _ => rfl) (by rw [withType, hstart]) rfl
  | typeParams owner names selects row_ne row_le => exact .set owner names rfl rfl selects row_ne row_le rfl
  | methodParams owner names selects row_ne row_le =>
    exact .kept rfl (fun other ho => paramsOf?_of_table (by decide) selects ho names) rfl
  | _ => exact .kept rfl (fun _ _ => rfl) rfl

theorem Added.methodStep (h : Added image entry image' token) :
    methodTable.Step log ⟨entry, token⟩ image.methods image'.methods := by
  cases h with
  | method name flags some_type => exact .added ⟨flags, name, []⟩ rfl (fun _ => rfl) rfl rfl
  | methodParams owner names selects row_ne row_le => exact .set owner names rfl rfl selects row_ne row_le rfl
  | typeParams owner names selects row_ne row_le =>
    exact .kept rfl (fun other ho => paramsOf?_of_table (by decide) selects ho names) rfl
  | _ => exact .kept rfl (fun _ _ => rfl) rfl

/-! ## Images that are as their log says -/

/-- what a log says of an image -/
structure Refines (log : List Call) (image : Image) : Prop where
  types : typeTable.Holds log image.types
  methods : methodTable.Holds log image.methods
  /-- a method is added behind a type -/
  owned : ∀ before call later, log = before ++ call :: later → call.entry.isMethod = true → typesIn before ≠ 0
  nesting : ∀ row outer, (row, outer) ∈ image.nesting.toList ↔ NestedAt log row outer
  nested : image.nesting.size = nestedTypesIn log
  attributes : image.attributes.toList = attributesIn log
  files : image.files.toList = filesIn log
  assembly : image.assembly = assemblyIn log

theorem refines_empty (name : String) (id : ModuleId) : Refines [] (empty name id) where
  types := Table.holds_nil
  methods := Table.holds_nil
  owned := fun before call later h => by simp at h
  nesting := fun row outer => by simp [empty, NestedAt]
  nested := rfl
  attributes := rfl
  files := rfl
  assembly := rfl

theorem nestedAt_concat {log : List Call} {call : Call} {row outer : UInt32} :
    NestedAt (log ++ [call]) row outer ↔ NestedAt log row outer ∨
      ∃ encloser name flags, call.entry = .nestedType encloser name flags ∧ row = rowAfter (typesIn log) ∧
        outer = encloser.row := by
  constructor
  · rintro ⟨before, encloser, name, flags, token, later, h, hrow, houter⟩
    rcases concat_eq_append_cons.1 h with ⟨rfl, rfl, rfl⟩ | ⟨more, rfl, hlog⟩
    · exact .inr ⟨encloser, name, flags, rfl, hrow, houter⟩
    · exact .inl ⟨before, encloser, name, flags, token, more, hlog, hrow, houter⟩
  · rintro (⟨before, encloser, name, flags, token, later, rfl, hrow, houter⟩ | ⟨encloser, name, flags, he, hrow, houter⟩)
    · exact ⟨before, encloser, name, flags, token, later ++ [call], by simp, hrow, houter⟩
    · exact ⟨log, encloser, name, flags, call.token, [], by rw [← he], hrow, houter⟩

theorem typesIn_concat (log : List Call) (call : Call) :
    typesIn (log ++ [call]) = typesIn log + if call.entry.isType then 1 else 0 :=
  typeTable.size_concat log call

theorem lastType_withType (image : Image) (space name : String) (flags : UInt32) :
    (image.withType space name flags).lastType = .ofParts .typeDef (rowAfter image.types.size) := by
  simp [lastType, withType, count, rowAfter]

theorem Added.nesting (h : Added image entry image' token) (hr : Refines log image)
    (ht : typesIn (log ++ [⟨entry, token⟩]) < 2 ^ 24) (row outer : UInt32) :
    (row, outer) ∈ image'.nesting.toList ↔ NestedAt (log ++ [⟨entry, token⟩]) row outer := by
  rw [nestedAt_concat, ← hr.nesting]
  cases h with
  | nestedType encloser name flags selects row_ne row_le =>
    rw [typesIn_concat] at ht
    have ht' : typeTable.size log + 1 < 2 ^ 24 := ht
    have htoken : (image.withType "" name flags).lastType = typeTable.tokenAfter log := by
      rw [lastType_withType, hr.types.size]
      rfl
    have hrow : (typeTable.tokenAfter log).row = rowAfter (typeTable.size log) :=
      UInt32.toNat_inj.1 ((Table.toNat_row_tokenAfter ht').trans (toNat_rowAfter (by omega)).symm)
    rw [htoken, hrow]
    simp [typeTable, Table.size, typesIn]
  | _ => simp [withType]

/-- tables that are not looked up by row get what the entry says -/
theorem Added.lists (h : Added image entry image' token) :
    image'.nesting.size = image.nesting.size + (if entry.isNestedType then 1 else 0) ∧
      image'.attributes.toList = image.attributes.toList ++ entry.attributeRow?.toList ∧
      image'.files.toList = image.files.toList ++ entry.fileName?.toList ∧
      image'.assembly = entry.assemblyName?.or image.assembly := by
  cases h with
  | stringAttribute parent space name argument value encoded =>
    simp [Entry.isNestedType, Entry.attributeRow?, Entry.fileName?, Entry.assemblyName?, encoded, Except.toOption]
  | _ => simp [Entry.isNestedType, Entry.attributeRow?, Entry.fileName?, Entry.assemblyName?, withType]

/-- every accepted call keeps what the log says, as long as types and methods fit into tokens -/
theorem refines_step (hr : Refines log image) (h : Added image entry image' token)
    (ht : typesIn (log ++ [⟨entry, token⟩]) < 2 ^ 24) (hm : methodsIn (log ++ [⟨entry, token⟩]) < 2 ^ 24) :
    Refines (log ++ [⟨entry, token⟩]) image' := by
  obtain ⟨hnested, hattributes, hfiles, hassembly⟩ := h.lists
  exact
    { types := (h.typeStep hr.methods.size).holds hr.types ht
      methods := h.methodStep.holds hr.methods hm
      owned := by
        intro before call later hsplit hmethod
        rcases concat_eq_append_cons.1 hsplit with ⟨rfl, rfl, rfl⟩ | ⟨more, rfl, hlog⟩
        · cases h with
          | method name flags some_type => rwa [hr.types.size] at some_type
          | _ => cases hmethod
        · exact hr.owned before call more hlog hmethod
      nesting := h.nesting hr ht
      nested := by
        rw [hnested, hr.nested, nestedTypesIn, nestedTypesIn, List.countP_append, List.countP_singleton]
      attributes := by
        rw [hattributes, hr.attributes]
        exact (filterMap_concat (·.entry.attributeRow?) log ⟨entry, token⟩).symm
      files := by
        rw [hfiles, hr.files]
        exact (filterMap_concat (·.entry.fileName?) log ⟨entry, token⟩).symm
      assembly := by
        rw [hassembly, hr.assembly, assemblyIn, assemblyIn, filterMap_concat, List.getLast?_append]
        cases entry.assemblyName? <;> rfl }

theorem accepted_cons (image : Image) (entry : Entry) (entries : List Entry) :
    accepted image (entry :: entries) =
      ((image.step entry).2.toOption.map (Call.mk entry)).toList ++ accepted (image.step entry).1 entries := by
  show List.filterMap _ ((entry, (image.step entry).2) :: _) = _
  rw [List.filterMap_cons]
  cases (image.step entry).2 <;> rfl

theorem accepted_append (done rest : List Entry) (image : Image) :
    accepted image (done ++ rest) = accepted image done ++ accepted (image.addAll done).1 rest := by
  induction done generalizing image with
  | nil => rfl
  | cons entry done ih =>
    rw [List.cons_append, accepted_cons, ih, accepted_cons, List.append_assoc]
    rfl

/-- every call keeps what the log says, whether it is accepted or not -/
theorem refines_call {image : Image} {log : List Call} (entry : Entry) (hr : Refines log image)
    (ht : typesIn (log ++ ((image.step entry).2.toOption.map (Call.mk entry)).toList) < 2 ^ 24)
    (hm : methodsIn (log ++ ((image.step entry).2.toOption.map (Call.mk entry)).toList) < 2 ^ 24) :
    Refines (log ++ ((image.step entry).2.toOption.map (Call.mk entry)).toList) (image.step entry).1 := by
  rcases step_cases image entry with ⟨token, image', hstep, hadded⟩ | ⟨e, hstep⟩
  · rw [hstep] at ht hm ⊢
    exact refines_step hr hadded ht hm
  · rw [hstep]
    simp only [Except.toOption, Option.map_none, Option.toList_none, List.append_nil]
    exact hr

/-- an image is as its log says after any calls, as long as types and methods fit into tokens -/
theorem refines_addAll (entries : List Entry) {image : Image} {log : List Call} (hr : Refines log image)
    (ht : typesIn (log ++ accepted image entries) < 2 ^ 24) (hm : methodsIn (log ++ accepted image entries) < 2 ^ 24) :
    Refines (log ++ accepted image entries) (image.addAll entries).1 := by
  induction entries generalizing image log with
  | nil =>
    rw [accepted, List.zip_nil_left, List.filterMap_nil, List.append_nil]
    exact hr
  | cons entry entries ih =>
    have hrun : (image.addAll (entry :: entries)).1 = ((image.step entry).1.addAll entries).1 := rfl
    rw [hrun]
    rw [accepted_cons, ← List.append_assoc] at ht hm ⊢
    refine ih (refines_call entry hr ?_ ?_) ht hm
    · rw [typesIn_append] at ht
      omega
    · rw [methodsIn_append] at hm
      omega

end FrameSymbols.Image
