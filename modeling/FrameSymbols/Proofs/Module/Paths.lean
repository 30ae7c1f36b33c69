/-
Following the names of a path to its row.

A row has a path of names: the namespace and the name of a top-level type, and the names of the types nested in it on
the way in (`Named`). In a reader with its types in order these names lead back to the row if it is the first of its
name in its place, and so is every row around it (`nestedRow_of_named`). A row that a name leads to is one of the table
(`row_le_of_rowNamed`). The index of the top-level types has for each name the row that a scan of the table comes to first
(`topLevelRow_eq_find?`).
-/
import FrameSymbols.Proofs.Module.NamedTypes
import FrameSymbols.Proofs.Module.Regular

namespace FrameSymbols

/-- the names that lead to a row -/
inductive Reader.Named (reader : Reader) : UInt32 → String → String → List String → Prop where
  /-- a top-level type has a namespace and a name -/
  | top {row : UInt32} {typeRow : TypeRow} (outermost : reader.encloser row = none)
      (decoded : reader.typeRow row = .ok typeRow) : Named reader row typeRow.space typeRow.name []
  /-- the name of a nested type comes after the names around it -/
  | nested {row outer : UInt32} {typeRow : TypeRow} {space top : String} {names : List String}
      (inside : reader.encloser row = some outer) (decoded : reader.typeRow row = .ok typeRow)
      (path : Named reader outer space top names) : Named reader row space top (names ++ [typeRow.name])

/-- no row before this one has the name in the same place: among the types nested in the same type, or among the
top-level types of the same namespace -/
def Reader.FirstOfName (reader : Reader) (row : UInt32) : Prop :=
  ∀ other typeRow otherRow, reader.typeRow row = .ok typeRow → reader.typeRow other = .ok otherRow →
    reader.encloser other = reader.encloser row → otherRow.name = typeRow.name →
    (reader.encloser row = none → otherRow.space = typeRow.space) → row ≤ other

namespace LoadedModule

theorem find?_least {rows : List UInt32} (h : rows.Pairwise (· < ·)) {p : UInt32 → Bool} {row : UInt32}
    (hrow : row ∈ rows) (hp : p row = true) (hleast : ∀ other ∈ rows, p other = true → row ≤ other) :
    rows.find? p = some row := by
  induction rows with
  | nil => cases hrow
  | cons first rows ih =>
    obtain ⟨hfirst, hrest⟩ := List.pairwise_cons.1 h
    rcases List.mem_cons.1 hrow with rfl | hmem
    · rw [List.find?_cons, hp]
    · have hno : p first = false := by
        cases hpf : p first with
        | false => rfl
        | true => exact absurd (hleast first List.mem_cons_self hpf) (UInt32.not_le.2 (hfirst row hmem))
      rw [List.find?_cons, hno]
      exact ih hrest hmem fun other ho => hleast other (List.mem_cons_of_mem first ho)

/-- whether a row is that of a top-level type with the namespace and the name -/
def isTopLevel (reader : Reader) (space name : String) (row : UInt32) : Bool :=
  (reader.encloser row).isNone &&
    match reader.typeRow row with
    | .ok typeRow => typeRow.space == space && typeRow.name == name
    | .error _ => false

theorem isTopLevel_iff {reader : Reader} {space name : String} {row : UInt32} :
    isTopLevel reader space name row = true ↔ reader.encloser row = none ∧
      ∃ typeRow, reader.typeRow row = .ok typeRow ∧ typeRow.space = space ∧ typeRow.name = name := by
  rw [isTopLevel, Bool.and_eq_true, Option.isNone_iff_eq_none]
  cases reader.typeRow row <;> simp

theorem isNamed_iff {reader : Reader} {name : String} {row : UInt32} :
    isNamed reader name row = true ↔ ∃ typeRow, reader.typeRow row = .ok typeRow ∧ typeRow.name = name := by
  rw [isNamed]
  cases reader.typeRow row <;> simp

/-- a name keeps the row that was entered for it first -/
theorem getElem?_indexRow (reader : Reader) (index : TopLevelIndex) (row : UInt32) (space name : String) :
    (indexRow reader index row)[(space, name)]? =
      index[(space, name)]?.or (if isTopLevel reader space name row then some row else none) := by
  unfold indexRow isTopLevel
  cases reader.encloser row with
  | some encloser => simp
  | none =>
    cases reader.typeRow row with
    | error e => simp
    | ok typeRow =>
      simp only [Std.TreeMap.getElem?_insertIfNew, Std.compare_eq_iff_eq, Prod.mk.injEq, Option.isNone_none,
        Bool.true_and, Std.TreeMap.mem_iff_isSome_getElem?]
      by_cases hkey : typeRow.space = space ∧ typeRow.name = name
      · obtain ⟨rfl, rfl⟩ := hkey
        cases index[(typeRow.space, typeRow.name)]? <;> simp
      · simp [hkey]

theorem getElem?_indexRows (reader : Reader) (index : TopLevelIndex) (row : UInt32) (count : Nat)
    (space name : String) :
    (indexRows reader index row count)[(space, name)]? =
      index[(space, name)]?.or ((rowsFrom row count).find? (isTopLevel reader space name)) := by
  induction count generalizing index row with
  | zero => simp [indexRows, rowsFrom]
  | succ count ih =>
    rw [indexRows, ih, getElem?_indexRow, rowsFrom, List.find?_cons, Option.or_assoc]
    cases isTopLevel reader space name row <;> rfl

/-- looking a top-level type up in the index is the same as scanning the table for it -/
theorem topLevelRow_eq_find? (m : LoadedModule) (space name : String) :
    m.topLevelRow space name =
      (rowsFrom 1 (m.reader.rowCount .typeDef).toNat).find? (isTopLevel m.reader space name) := by
  rw [topLevelRow, topLevelIndex, getElem?_indexRows]
  simp

theorem nestedRow_append (reader : Reader) (row : UInt32) (names more : List String) :
    nestedRow reader row (names ++ more) = (nestedRow reader row names).bind (nestedRow reader · more) := by
  induction names generalizing row with
  | nil => rfl
  | cons name names ih =>
    simp only [List.cons_append, nestedRow]
    cases (reader.nestedIn row).find? (isNamed reader name) with
    | none => rfl
    | some inner => exact ih inner

variable {m : LoadedModule}

/-- the rows among which a top-level type is looked for -/
theorem typeRows_spec {reader : Reader} (hb : reader.BoundedTypes) :
    (rowsFrom 1 (reader.rowCount .typeDef).toNat).Pairwise (· < ·) ∧
      ∀ row, row ∈ rowsFrom 1 (reader.rowCount .typeDef).toNat ↔ row ≠ 0 ∧ row ≤ reader.rowCount .typeDef := by
  have hcount : (1 : UInt32).toNat + (reader.rowCount .typeDef).toNat < 2 ^ 32 := by
    have := UInt32.le_iff_toNat_le.1 hb.types
    simp only [UInt32.reduceToNat] at this ⊢
    omega
  refine ⟨pairwise_rowsFrom hcount, ?_⟩
  intro row
  rw [mem_rowsFrom hcount, UInt32.le_iff_toNat_le, Ne, ← UInt32.toNat_inj]
  simp only [UInt32.reduceToNat]
  omega

/-- the names of a path lead to its row, if each row on the path is the first of its name -/
theorem nestedRow_of_named (hr : m.reader.TypesInOrder) {row : UInt32} {space top : String} {names : List String}
    (hn : m.reader.Named row space top names) {path : List UInt32} (hp : IsPath m.reader row path)
    (hfirst : ∀ visited ∈ row :: path, m.reader.FirstOfName visited) :
    ∃ outermost, m.topLevelRow space top = some outermost ∧ nestedRow m.reader outermost names = some row := by
  induction hn generalizing path with
  | @top row typeRow outermost decoded =>
    refine ⟨row, ?_, rfl⟩
    obtain ⟨hpairwise, hmem⟩ := typeRows_spec hr.toBoundedTypes
    rw [topLevelRow_eq_find?]
    refine find?_least hpairwise ((hmem row).2 (hr.typeRow row typeRow decoded)) ?_ fun other _ ho => ?_
    · exact isTopLevel_iff.2 ⟨outermost, typeRow, decoded, rfl, rfl⟩
    · obtain ⟨hnone, otherRow, hor, hspace, hname⟩ := isTopLevel_iff.1 ho
      exact hfirst row List.mem_cons_self other typeRow otherRow decoded hor (hnone.trans outermost.symm) hname
        fun _ => hspace
  | @nested row outer typeRow space top names inside decoded _ ih =>
    cases path with
    | nil => rw [IsPath, inside] at hp; cases hp
    | cons next path =>
      obtain ⟨hnext, hp⟩ := hp
      rw [inside, Option.some.injEq] at hnext
      subst hnext
      obtain ⟨outermost, htop, hnested⟩ := ih hp fun visited hv => hfirst visited (List.mem_cons_of_mem row hv)
      refine ⟨outermost, htop, ?_⟩
      have hfind : (m.reader.nestedIn outer).find? (isNamed m.reader typeRow.name) = some row := by
        refine find?_least (hr.listedInOrder outer) ((hr.listed outer row).2 inside) ?_ fun other hmem ho => ?_
        · exact isNamed_iff.2 ⟨typeRow, decoded, rfl⟩
        · have hinside := (hr.listed outer other).1 hmem
          obtain ⟨otherRow, hor, hname⟩ := isNamed_iff.1 ho
          exact hfirst row List.mem_cons_self other typeRow otherRow decoded hor (hinside.trans inside.symm) hname
            fun hnone => by rw [inside] at hnone; cases hnone
      rw [nestedRow_append, hnested]
      simp [nestedRow, hfind]

/-- the row that a name leads to is one of the table -/
theorem row_le_of_rowNamed (hr : m.reader.TypesInOrder) {n : TypeName} {row : UInt32} (h : m.rowNamed n = some row) :
    row ≤ m.reader.rowCount .typeDef := by
  have hnested : ∀ (names : List String) (outer : UInt32), outer ≤ m.reader.rowCount .typeDef →
      nestedRow m.reader outer names = some row → row ≤ m.reader.rowCount .typeDef := by
    intro names
    induction names with
    | nil => intro outer hle he; cases he; exact hle
    | cons name names ih =>
      intro outer _ he
      simp only [nestedRow, bind, Option.bind_eq_some_iff] at he
      obtain ⟨inner, hf, he⟩ := he
      exact ih inner (hr.outward inner outer ((hr.listed outer inner).1 (List.mem_of_find?_eq_some hf))).2.2 he
  unfold rowNamed at h
  split at h
  · simp only [bind, Option.bind_eq_some_iff] at h
    obtain ⟨outermost, htop, h⟩ := h
    rw [topLevelRow_eq_find?] at htop
    exact hnested _ outermost (((typeRows_spec hr.toBoundedTypes).2 outermost).1 (List.mem_of_find?_eq_some htop)).2 h
  · cases h

/-- the names that are followed inwards are the names of the row that is reached -/
theorem named_of_nestedRow {reader : Reader} (hr : reader.TypesInOrder) {outer row : UInt32} {space top : String}
    {before names : List String} (hn : reader.Named outer space top before) (h : nestedRow reader outer names = some row) :
    reader.Named row space top (before ++ names) := by
  induction names generalizing outer before with
  | nil =>
    cases h
    rwa [List.append_nil]
  | cons name names ih =>
    obtain ⟨inner, hfind, h⟩ := Option.bind_eq_some_iff.1 h
    have hinside := (hr.listed outer inner).1 (List.mem_of_find?_eq_some hfind)
    obtain ⟨typeRow, hrow, hname⟩ := isNamed_iff.1 (List.find?_some hfind)
    have hinner := Reader.Named.nested hinside hrow hn
    rw [hname] at hinner
    rw [← List.singleton_append, ← List.append_assoc]
    exact ih hinner h

/-- what a name has to be like to lead to a row, whose names it has -/
theorem named_of_rowNamed (hr : m.reader.TypesInOrder) {n : TypeName} {row : UInt32} (h : m.rowNamed n = some row) :
    n.suffixes = [] ∧ (∀ name ∈ n.assemblySimpleName, Text.sameIgnoringCase name m.assemblyName = true) ∧
      m.reader.Named row n.space n.top n.nested := by
  unfold rowNamed at h
  split at h
  · next hhere =>
    rw [Bool.and_eq_true, List.isEmpty_iff, Option.all_eq_true] at hhere
    obtain ⟨outermost, htop, h⟩ := Option.bind_eq_some_iff.1 h
    rw [topLevelRow_eq_find?] at htop
    obtain ⟨hnone, typeRow, hrow, hspace, hname⟩ := isTopLevel_iff.1 (List.find?_some htop)
    refine ⟨hhere.2, hhere.1, ?_⟩
    have houtermost := Reader.Named.top hnone hrow
    rw [hspace, hname] at houtermost
    exact named_of_nestedRow hr houtermost h
  · cases h

/-- every row with a path of enclosing rows has names -/
theorem named_of_path {reader : Reader} (hr : reader.TypesInOrder) {row : UInt32} {path : List UInt32} (h0 : row ≠ 0)
    (hle : row ≤ reader.rowCount .typeDef) (hp : IsPath reader row path) :
    ∃ space top names, reader.Named row space top names := by
  induction path generalizing row with
  | nil =>
    obtain ⟨typeRow, htr⟩ := hr.decodes row h0 hle
    exact ⟨_, _, _, .top hp htr⟩
  | cons outer path ih =>
    obtain ⟨typeRow, htr⟩ := hr.decodes row h0 hle
    obtain ⟨he, hp⟩ := hp
    obtain ⟨ho0, hlt, -⟩ := hr.outward row outer he
    obtain ⟨space, top, names, hn⟩ := ih ho0 (UInt32.le_trans (UInt32.le_of_lt hlt) hle) hp
    exact ⟨_, _, _, .nested he htr hn⟩

/-- the names on the way to a row lead to it if each row on its path is the first of its name -/
theorem rowNamed_of_named (hr : m.reader.TypesInOrder) {n : TypeName} {row : UInt32}
    (hn : m.reader.Named row n.space n.top n.nested) (hsuffixes : n.suffixes = [])
    (hassembly : ∀ name ∈ n.assemblySimpleName, Text.sameIgnoringCase name m.assemblyName = true) {path : List UInt32}
    (hp : IsPath m.reader row path) (hfirst : ∀ visited ∈ row :: path, m.reader.FirstOfName visited) :
    m.rowNamed n = some row := by
  obtain ⟨outermost, htop, hnested⟩ := nestedRow_of_named hr hn hp hfirst
  have hhere : n.assemblySimpleName.all (Text.sameIgnoringCase · m.assemblyName) = true :=
    (Option.all_eq_true _ _).2 hassembly
  rw [rowNamed, hhere, hsuffixes, htop]
  exact hnested

end LoadedModule

end FrameSymbols
