/-
Readers with tables in order, and which queries they always answer.

In a reader with its types in order every row of a type can be decoded, and nesting leads to smaller rows and can be
followed both ways; there a type with at most `maxNesting` types around it is always decoded (`typeOfRow_answers`),
whatever is remembered. A regular reader has its methods in order as well: those of a type are between its start and the
next one. There it does not matter how deep a type is, once it is remembered: from then on its methods can be resolved
(`resolveMethod_answers`) and its members are found (`members_answers`).
-/
import FrameSymbols.Proofs.Module.Enclosing
import FrameSymbols.Proofs.Tables.Owners
import Mathlib.Algebra.Group.Nat.Defs

namespace FrameSymbols

/-- a reader with tables in order -/
structure Reader.Regular (reader : Reader) : Prop where
  bounded : reader.Bounded
  ordered : reader.toTables.Ordered
  /-- no run starts before the first method -/
  starts : ∀ row typeRow, reader.typeRow row = .ok typeRow → typeRow.methodList ≠ 0
  methods : ∀ row, row ≠ 0 → row ≤ reader.rowCount .methodDef → ∃ methodRow, reader.methodRow row = .ok methodRow
  methodsOf : reader.methodsOf = reader.methodRun
  ownerOf : reader.ownerOf = reader.owner
  listed : ∀ outer row, row ∈ reader.nestedIn outer ↔ reader.encloser row = some outer
  listedInOrder : ∀ outer, (reader.nestedIn outer).Pairwise (· < ·)
  outward : ∀ row outer, reader.encloser row = some outer →
    outer ≠ 0 ∧ outer < row ∧ row ≤ reader.rowCount .typeDef

/-- a reader with its types in order -/
structure Reader.TypesInOrder (reader : Reader) : Prop extends reader.BoundedTypes where
  decodes : ∀ row, row ≠ 0 → row ≤ reader.rowCount .typeDef → ∃ typeRow, reader.typeRow row = .ok typeRow
  listed : ∀ outer row, row ∈ reader.nestedIn outer ↔ reader.encloser row = some outer
  listedInOrder : ∀ outer, (reader.nestedIn outer).Pairwise (· < ·)
  outward : ∀ row outer, reader.encloser row = some outer →
    outer ≠ 0 ∧ outer < row ∧ row ≤ reader.rowCount .typeDef

theorem Reader.Regular.typesInOrder {reader : Reader} (h : reader.Regular) : reader.TypesInOrder where
  toBoundedTypes := h.bounded.boundedTypes
  decodes := h.ordered.decodes
  listed := h.listed
  listedInOrder := h.listedInOrder
  outward := h.outward

theorem Reader.TypesInOrder.closedNesting {reader : Reader} (h : reader.TypesInOrder) : reader.ClosedNesting where
  toBoundedTypes := h.toBoundedTypes
  decodes := h.decodes
  encloser := fun row outer he => by
    obtain ⟨h0, hlt, hle⟩ := h.outward row outer he
    exact ⟨h0, UInt32.le_trans (UInt32.le_of_lt hlt) hle⟩

/-- the query answers, whatever is remembered -/
def Query.Answers {α : Type} (q : Query α) : Prop := ∀ memory, ∃ a, (q.runFrom memory).1 = .ok a

namespace LoadedModule

open Query

variable {m : LoadedModule} {memory : Memory}

theorem typeOfRow_answers (hr : m.reader.TypesInOrder) {row : UInt32} {path : List UInt32} (h0 : row ≠ 0)
    (hle : row ≤ m.reader.rowCount .typeDef) (hp : IsPath m.reader row path) (hlength : path.length ≤ maxNesting) :
    (m.typeOfRow row).Answers :=
  typeOfRow_of_path hr.closedNesting h0 hle hp hlength

/-! ## Rows in order -/

theorem mem_rowsFrom {start row : UInt32} {count : Nat} (h : start.toNat + count < 2 ^ 32) :
    row ∈ rowsFrom start count ↔ start.toNat ≤ row.toNat ∧ row.toNat < start.toNat + count := by
  induction count generalizing start with
  | zero => simp [rowsFrom]
  | succ count ih =>
    have hnext : (start + 1).toNat = start.toNat + 1 := Tables.toNat_add_one (by omega)
    rw [rowsFrom, List.mem_cons, ih (by omega), hnext, ← UInt32.toNat_inj]
    omega

theorem pairwise_rowsFrom {start : UInt32} {count : Nat} (h : start.toNat + count < 2 ^ 32) :
    (rowsFrom start count).Pairwise (· < ·) := by
  induction count generalizing start with
  | zero => exact .nil
  | succ count ih =>
    have hnext : (start + 1).toNat = start.toNat + 1 := Tables.toNat_add_one (by omega)
    refine .cons (fun row hrow => ?_) (ih (by omega))
    have := (mem_rowsFrom (by omega)).1 hrow
    exact UInt32.lt_iff_toNat_lt.2 (by omega)

/-- where runs start in row order, the run of a type has the methods that it owns, in row order -/
theorem methodRun_rows {t : Tables} (hord : t.Ordered) (hcount : t.rowCount .methodDef ≤ 0xFFFFFF) {row : UInt32}
    (h0 : row ≠ 0) (hle : row ≤ t.rowCount .typeDef) :
    ∃ run, t.methodRun row = .ok run ∧ (rowsFrom run.start run.size).Pairwise (· < ·) ∧
      (∃ typeRow, t.typeRow row = .ok typeRow ∧
        ∀ method ∈ rowsFrom run.start run.size, typeRow.methodList ≤ method) ∧
      ∀ method, method ≠ 0 → (method ∈ rowsFrom run.start run.size ↔ t.owner method = .ok row) := by
  have hcount := UInt32.le_iff_toNat_le.1 hcount
  simp only [UInt32.reduceToNat] at hcount
  obtain ⟨run, hrun, ⟨typeRow, htr, hstart⟩, hle', hstop, hspec⟩ := Tables.methodRun_spec hord (by omega) h0 hle
  have hsize : run.start.toNat + run.size < 2 ^ 32 := by unfold RowRange.size; omega
  have hmem : ∀ method, method ∈ rowsFrom run.start run.size ↔ run.start ≤ method ∧ method < run.stop := by
    intro method
    rw [mem_rowsFrom hsize, UInt32.le_iff_toNat_le, UInt32.lt_iff_toNat_lt, RowRange.size]
    omega
  refine ⟨run, hrun, pairwise_rowsFrom hsize, ⟨typeRow, htr, fun method hm => ?_⟩, fun method hm0 => ?_⟩
  · rw [← hstart]
    exact ((hmem method).1 hm).1
  · rw [hmem]
    exact hspec method hm0

/-- a run has the methods that its type owns -/
theorem methodsOf_spec {reader : Reader} (hr : reader.Regular) {row : UInt32} (h0 : row ≠ 0)
    (hle : row ≤ reader.rowCount .typeDef) :
    ∃ run, reader.methodsOf row = .ok run ∧ (rowsFrom run.start run.size).Pairwise (· < ·) ∧
      ∀ method, method ∈ rowsFrom run.start run.size ↔ reader.owner method = .ok row := by
  obtain ⟨run, hrun, hpairwise, ⟨typeRow, htr, hstart⟩, hmem⟩ := methodRun_rows hr.ordered hr.bounded.methods h0 hle
  refine ⟨run, by rw [hr.methodsOf]; exact hrun, hpairwise, ?_⟩
  intro method
  by_cases hm0 : method = 0
  · subst hm0
    constructor
    · intro h
      exact absurd (UInt32.le_antisymm (hstart 0 h) UInt32.zero_le) (hr.starts row typeRow htr)
    · intro howner
      exact absurd rfl (Tables.method_range_of_owner howner).1
  · exact hmem method hm0

/-! ## Answers from some memory on -/

/-- from `memory` on the query answers, whatever is remembered besides -/
def AnswersFrom {α : Type} (m : LoadedModule) (memory : Memory) (q : Query α) : Prop :=
  ∀ after, m.Coherent after → memory.Extends after → ∃ a, (q.runFrom after).1 = .ok a

section

variable {α β : Type}

theorem answersFrom_pure (a : α) : m.AnswersFrom memory (pure a) := fun _ _ _ => ⟨a, rfl⟩

theorem answersFrom_lift_bind {x : Except Error α} {a : α} {f : α → Query β} (h : x = .ok a)
    (hf : m.AnswersFrom memory (f a)) : m.AnswersFrom memory ((liftM x : Query α) >>= f) := by
  intro after hafter hg
  obtain ⟨b, hb⟩ := hf after hafter hg
  exact ⟨b, by rw [Action.runFrom_bind, Action.runFrom_lift, h]; exact hb⟩

/-- what comes second is asked in a later memory -/
theorem answersFrom_bind {q : Query α} {f : α → Query β} {mid : α → Memory → Prop} (hq : m.AnswersFrom memory q)
    (hs : ∀ {after}, m.Coherent after → Sound m.Coherent after q mid) (hf : ∀ a, m.AnswersFrom memory (f a)) :
    m.AnswersFrom memory (q >>= f) := by
  intro after hafter hg
  obtain ⟨a, ha⟩ := hq after hafter hg
  obtain ⟨hkeeps, hgrows, -⟩ := hs hafter
  obtain ⟨b, hb⟩ := hf a _ hkeeps (hg.trans hgrows)
  refine ⟨b, ?_⟩
  rw [Action.runFrom_bind]
  cases hrun : q.runFrom after with
  | mk answer after' =>
    rw [hrun] at ha hb
    simp only at ha hb
    subst ha
    exact hb

end

/-! ## Members -/

variable {owner : UInt32} {t : TypeSymbol}

theorem typeOfRow_answersFrom (ht : memory.type? (.ofParts .typeDef owner) = some t) :
    m.AnswersFrom memory (m.typeOfRow owner) := by
  intro after _ hg
  refine typeSymbol_answers (.inr (meets_of_remembered ?_))
  rw [hg.types _ _ ht]
  exact Option.some_ne_none t

/-- the walk from a type in a remembered one is short -/
theorem nested_answersFrom (hr : m.reader.Regular) (ht : memory.type? (.ofParts .typeDef owner) = some t) {row : UInt32}
    (he : m.reader.encloser row = some owner) : m.AnswersFrom memory (m.typeOfRow row) := by
  obtain ⟨h0, hlt, hle⟩ := hr.outward row owner he
  have hrow0 : row ≠ 0 := fun hz => absurd (hz ▸ hlt) UInt32.not_lt_zero
  obtain ⟨typeRow, htr⟩ := hr.ordered.decodes row hrow0 hle
  intro after _ hg
  refine typeSymbol_answers (.inr (meets_of_encloser htr he h0 (UInt32.le_trans (UInt32.le_of_lt hlt) hle) ?_))
  refine meets_of_remembered ?_
  rw [hg.types _ _ ht]
  exact Option.some_ne_none t

theorem resolveMethod_answersFrom (hr : m.reader.Regular) (ht : memory.type? (.ofParts .typeDef owner) = some t)
    {row : UInt32} (howner : m.reader.owner row = .ok owner) :
    m.AnswersFrom memory (m.resolveMethod (.ofParts .methodDef row)) := by
  obtain ⟨h0, hle⟩ := Tables.method_range_of_owner howner
  have hrow : (Token.ofParts .methodDef row).row = row :=
    Token.row_ofParts_of_le (UInt32.le_trans hle hr.bounded.methods)
  obtain ⟨methodRow, hmr⟩ := hr.methods row h0 hle
  have hcheck : m.checkToken (.ofParts .methodDef row) .methodDef .method = .ok () :=
    checkToken_eq_ok_iff.2 ⟨Token.selects_ofParts _ _, by rw [hrow]; exact h0, by rw [hrow]; exact hle⟩
  refine answersFrom_lift_bind hcheck (answersFrom_bind (fun after _ _ => ⟨after, rfl⟩) sound_get fun known => ?_)
  cases known.method? (.ofParts .methodDef row) with
  | some x => exact answersFrom_pure x
  | none =>
    simp only [hrow]
    refine answersFrom_lift_bind (by rw [hr.ownerOf]; exact howner) ?_
    refine answersFrom_bind (typeOfRow_answersFrom ht) (typeOfRow_sound owner) fun declaring => ?_
    exact answersFrom_lift_bind hmr fun _ _ _ => ⟨_, rfl⟩

theorem methodsNamed_answersFrom (hr : m.reader.Regular) (ht : memory.type? (.ofParts .typeDef owner) = some t)
    (hi : t.isInstance = false) (name : String) {row : UInt32} {count : Nat}
    (howner : ∀ method ∈ rowsFrom row count, m.reader.owner method = .ok owner) :
    m.AnswersFrom memory (m.methodsNamed t name row count) := by
  induction count generalizing row with
  | zero => exact answersFrom_pure []
  | succ count ih =>
    have hmethod := howner row List.mem_cons_self
    obtain ⟨h0, hle⟩ := Tables.method_range_of_owner hmethod
    obtain ⟨methodRow, hmr⟩ := hr.methods row h0 hle
    have hrest := ih fun method hm => howner method (List.mem_cons_of_mem _ hm)
    unfold methodsNamed
    refine answersFrom_bind ?_ (methodNamed_sound t name row) fun found =>
      answersFrom_bind hrest (methodsNamed_sound t name (row + 1) count) fun more => answersFrom_pure _
    unfold methodNamed
    refine answersFrom_lift_bind hmr ?_
    split
    · refine answersFrom_bind (resolveMethod_answersFrom hr ht hmethod) (resolveMethod_sound _) fun x => ?_
      rw [hi]
      exact answersFrom_pure _
    · exact answersFrom_pure none

theorem nestedTypesNamed_answersFrom (hr : m.reader.Regular) (ht : memory.type? (.ofParts .typeDef owner) = some t)
    (name : String) {rows : List UInt32} (hrows : ∀ row ∈ rows, m.reader.encloser row = some owner) :
    m.AnswersFrom memory (m.nestedTypesNamed name rows) := by
  induction rows with
  | nil => exact answersFrom_pure []
  | cons row rows ih =>
    have he := hrows row List.mem_cons_self
    obtain ⟨-, hlt, hle⟩ := hr.outward row owner he
    obtain ⟨typeRow, htr⟩ := hr.ordered.decodes row (fun hz => absurd (hz ▸ hlt) UInt32.not_lt_zero) hle
    have hrest := ih fun row' hm => hrows row' (List.mem_cons_of_mem _ hm)
    unfold nestedTypesNamed
    refine answersFrom_bind ?_ (nestedNamed_sound name row) fun found =>
      answersFrom_bind hrest (nestedTypesNamed_sound name rows) fun more => answersFrom_pure _
    unfold nestedNamed
    refine answersFrom_lift_bind htr ?_
    split
    · exact answersFrom_bind (nested_answersFrom hr ht he) (typeOfRow_sound row) fun u => answersFrom_pure _
    · exact answersFrom_pure none

theorem ownRow_of_remembered (hr : m.reader.Regular) (h : m.Coherent memory)
    (ht : memory.type? (.ofParts .typeDef owner) = some t) (hle : owner ≤ m.reader.rowCount .typeDef) :
    m.ownRow t.origin .typeDef = .ok owner := by
  rw [h.type_origin ht, ownRow_originOf, Token.row_ofParts_of_le (UInt32.le_trans hle hr.bounded.types)]

/-- the members of a remembered type are found -/
theorem members_answers (hr : m.reader.Regular) (h : m.Coherent memory)
    (ht : memory.type? (.ofParts .typeDef owner) = some t) (h0 : owner ≠ 0)
    (hle : owner ≤ m.reader.rowCount .typeDef) (name : String) :
    ∃ found, ((m.members t name).runFrom memory).1 = .ok found := by
  have hi := h.type_isInstance ht
  obtain ⟨run, hrun, -, hmem⟩ := methodsOf_spec hr h0 hle
  have hmethods := methodsNamed_answersFrom hr ht hi name fun method hm => (hmem method).1 hm
  have hnested := nestedTypesNamed_answersFrom hr ht name fun row hm => (hr.listed owner row).1 hm
  have hmembers : m.AnswersFrom memory (m.members t name) := by
    unfold members
    refine answersFrom_lift_bind (ownRow_of_remembered hr h ht hle) (answersFrom_lift_bind hrun ?_)
    exact answersFrom_bind hmethods (methodsNamed_sound t name run.start run.size) fun methods =>
      answersFrom_bind hnested (nestedTypesNamed_sound name _) fun nested => answersFrom_pure _
  exact hmembers memory h (Memory.Extends.refl memory)

/-- the methods of a remembered type can be resolved -/
theorem resolveMethod_answers (hr : m.reader.Regular) (h : m.Coherent memory)
    (ht : memory.type? (.ofParts .typeDef owner) = some t) {row : UInt32} (howner : m.reader.owner row = .ok owner) :
    ∃ x, ((m.resolveMethod (.ofParts .methodDef row)).runFrom memory).1 = .ok x :=
  resolveMethod_answersFrom hr ht howner memory h (Memory.Extends.refl memory)

end LoadedModule

end FrameSymbols
