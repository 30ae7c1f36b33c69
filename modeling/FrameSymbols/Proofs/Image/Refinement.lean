/-
What an image tells as a reader is what its log says.

Rows, nesting and attributes are read off the tables. The methods of a type were added between it and the next type
(`methodsOf_call`), so the type that owns a method is the one that was added last before it (`ownerOf_call`), although no
table says so. `image_refines_calls` puts this together for any sequence of calls, and says which of them are accepted.
-/
import FrameSymbols.Proofs.Image.Grown
import FrameSymbols.Proofs.Image.Log
import Mathlib.Data.List.Induction
import Mathlib.Data.List.TakeWhile

namespace FrameSymbols.Image

def rowsIn (log : List Call) : TableId → Nat
  | .module => 1
  | .typeDef => typesIn log
  | .methodDef => methodsIn log
  | .nestedClass => nestedTypesIn log
  | .customAttribute => (attributesIn log).length
  | .assembly => if (assemblyIn log).isSome then 1 else 0
  | .file => (filesIn log).length
  | _ => 0

/-- a reader tells what a log says -/
structure Tells (log : List Call) (reader : Reader) : Prop where
  /-- a type has the token that was given for it, the fields of the call, the generic parameters that were set last, and
  the methods that were added between it and the next type -/
  types : ∀ before call later, log = before ++ call :: later → ∀ row,
    call.entry.typeRow? (rowAfter (methodsIn before))
      (paramsSet log (.ofParts .typeDef (rowAfter (typesIn before)))) = some row →
    call.token = some (.ofParts .typeDef (rowAfter (typesIn before))) ∧
      reader.typeRow (rowAfter (typesIn before)) = .ok row ∧
      reader.methodsOf (rowAfter (typesIn before)) = .ok ⟨rowAfter (methodsIn before),
        rowAfter (methodsIn before + methodsIn (later.takeWhile (!·.entry.isType)))⟩
  /-- a method has the token that was given for it, the fields of the call and the generic parameters that were set last,
  and belongs to the type that was added last before it -/
  methods : ∀ before call later, log = before ++ call :: later → ∀ row,
    call.entry.methodRow? (paramsSet log (.ofParts .methodDef (rowAfter (methodsIn before)))) = some row →
    call.token = some (.ofParts .methodDef (rowAfter (methodsIn before))) ∧
      reader.methodRow (rowAfter (methodsIn before)) = .ok row ∧
      ∃ earlier type between, before = earlier ++ type :: between ∧ type.entry.isType = true ∧
        (∀ c ∈ between, c.entry.isType = false) ∧
        reader.ownerOf (rowAfter (methodsIn before)) = .ok (rowAfter (typesIn earlier))
  /-- a type is nested in the type that it was added to, which is an earlier one -/
  encloser : ∀ row outer, reader.encloser row = some outer ↔ NestedAt log row outer
  outward : ∀ row outer, NestedAt log row outer → outer ≠ 0 ∧ outer < row
  /-- the types nested in a type, in row order -/
  nestedIn : ∀ outer, (reader.nestedIn outer).Pairwise (· < ·) ∧ ∀ row, row ∈ reader.nestedIn outer ↔ NestedAt log row outer
  /-- the attributes of a parent, in the order of the calls -/
  attributes : ∀ parent, reader.attributes parent = (attributesIn log).filter (·.parent == parent)
  files : reader.files = filesIn log
  assembly : reader.assembly = assemblyIn log
  rowCount : ∀ table, (reader.rowCount table).toNat = rowsIn log table

variable {image : Image} {log : List Call}

theorem typeRow?_withParams (entry : Entry) (start : UInt32) (params : List String) :
    entry.typeRow? start params = (entry.typeRow? start []).map (typeTable.withParams params) := by
  cases entry <;> rfl

theorem methodRow?_withParams (entry : Entry) (params : List String) :
    entry.methodRow? params = (entry.methodRow? []).map (methodTable.withParams params) := by
  cases entry <;> rfl

theorem rowAfter_ne_zero {n : Nat} (h : n + 1 < 2 ^ 32) : rowAfter n ≠ 0 := by
  intro h0
  have hrow := toNat_rowAfter h
  rw [h0] at hrow
  simp at hrow

theorem rowOf_rowAfter {α : Type} {table : TableId} {rows : Array α} {n : Nat} {a : α} (hn : n + 1 < 2 ^ 32)
    (h : rows[n]? = some a) : rowOf table rows (rowAfter n) = .ok a := by
  refine rowOf_eq_ok_iff.2 ⟨rowAfter_ne_zero hn, ?_⟩
  rw [toNat_rowAfter hn, Nat.add_sub_cancel, h]

theorem Table.Holds.rowOf_call {α : Type} {T : Table α} {rows : Array α} (h : T.Holds log rows)
    (hsize : T.size log < 2 ^ 24) {before later : List Call} {call : Call} (hlog : log = before ++ call :: later)
    {made : α} (hmade : T.row? before call.entry = some made) :
    call.token = some (T.tokenAfter before) ∧ rowOf T.id rows (rowAfter (T.size before)) =
      .ok (T.withParams (paramsSet log (T.tokenAfter before)) made) := by
  obtain ⟨htoken, hat⟩ := h.rowAt before call later hlog made hmade
  have hlt := size_lt_of_split hlog hmade
  exact ⟨htoken, rowOf_rowAfter (by omega) hat⟩

/-- a type is there as it was added -/
theorem typeRow_call (hr : Refines log image) (ht : typesIn log < 2 ^ 24) {before later : List Call} {call : Call}
    (h : log = before ++ call :: later) {row : TypeRow}
    (hrow : call.entry.typeRow? (rowAfter (methodsIn before))
      (paramsSet log (.ofParts .typeDef (rowAfter (typesIn before)))) = some row) :
    call.token = some (.ofParts .typeDef (rowAfter (typesIn before))) ∧
      image.reader.typeRow (rowAfter (typesIn before)) = .ok row := by
  rw [typeRow?_withParams] at hrow
  obtain ⟨made, hmade, rfl⟩ := Option.map_eq_some_iff.1 hrow
  exact hr.types.rowOf_call ht h hmade

/-- a method is there as it was added -/
theorem methodRow_call (hr : Refines log image) (hm : methodsIn log < 2 ^ 24) {before later : List Call} {call : Call}
    (h : log = before ++ call :: later) {row : MethodRow}
    (hrow : call.entry.methodRow? (paramsSet log (.ofParts .methodDef (rowAfter (methodsIn before)))) = some row) :
    call.token = some (.ofParts .methodDef (rowAfter (methodsIn before))) ∧
      image.reader.methodRow (rowAfter (methodsIn before)) = .ok row := by
  rw [methodRow?_withParams] at hrow
  obtain ⟨made, hmade, rfl⟩ := Option.map_eq_some_iff.1 hrow
  exact hr.methods.rowOf_call hm h hmade

/-! ## Who owns which methods -/

theorem toNat_typeCount (hr : Refines log image) (ht : typesIn log < 2 ^ 24) :
    (image.reader.rowCount .typeDef).toNat = typesIn log :=
  (toNat_count (show image.types.size < 2 ^ 32 by rw [hr.types.size]; exact Nat.lt_trans ht (by decide))).trans hr.types.size

theorem toNat_methodCount (hr : Refines log image) (hm : methodsIn log < 2 ^ 24) :
    (image.reader.rowCount .methodDef).toNat = methodsIn log :=
  (toNat_count (show image.methods.size < 2 ^ 32 by rw [hr.methods.size]; exact Nat.lt_trans hm (by decide))).trans
    hr.methods.size

theorem isMethod_of_isType {entry : Entry} (h : entry.isType = true) : entry.isMethod = false := by
  cases entry with
  | method name flags => cases h
  | _ => rfl

/-- a type starts behind the methods that were added before it -/
theorem methodList_call (hr : Refines log image) (ht : typesIn log < 2 ^ 24) {before later : List Call} {call : Call}
    (h : log = before ++ call :: later) (htype : call.entry.isType = true) :
    ∃ row, image.reader.typeRow (rowAfter (typesIn before)) = .ok row ∧ row.methodList = rowAfter (methodsIn before) := by
  have hrow : ∃ row, call.entry.typeRow? (rowAfter (methodsIn before))
      (paramsSet log (.ofParts .typeDef (rowAfter (typesIn before)))) = some row ∧
        row.methodList = rowAfter (methodsIn before) := by
    cases hentry : call.entry with
    | type space name flags => exact ⟨_, rfl, rfl⟩
    | nestedType encloser name flags => exact ⟨_, rfl, rfl⟩
    | _ => rw [hentry] at htype; cases htype
  obtain ⟨row, hmade, hstart⟩ := hrow
  exact ⟨row, (typeRow_call hr ht h hmade).2, hstart⟩

theorem typesIn_split {before later : List Call} {call : Call} (h : log = before ++ call :: later)
    (htype : call.entry.isType = true) : typesIn log = typesIn before + 1 + typesIn later := by
  have hsize := Table.size_split (T := typeTable) h
  rwa [show typeTable.adds call.entry = true from htype] at hsize

theorem methodsIn_split {before later : List Call} {call : Call} (h : log = before ++ call :: later) :
    methodsIn log = methodsIn before + (if call.entry.isMethod then 1 else 0) + methodsIn later :=
  Table.size_split (T := methodTable) h

/-- a type adds no method -/
theorem methodsIn_split_type {before later : List Call} {call : Call} (h : log = before ++ call :: later)
    (htype : call.entry.isType = true) : methodsIn log = methodsIn before + methodsIn later := by
  have hsize := methodsIn_split h
  rwa [isMethod_of_isType htype] at hsize

theorem typesIn_eq_zero {log : List Call} (h : ∀ c ∈ log, c.entry.isType = false) : typesIn log = 0 :=
  List.countP_eq_zero.2 fun c hc => by simp [h c hc]

theorem methodRun_inner {t : Tables} {row : UInt32} {typeRow next : TypeRow} (hrow : t.typeRow row = .ok typeRow)
    (hlt : row < t.rowCount .typeDef) (hnext : t.typeRow (row + 1) = .ok next)
    (hle : typeRow.methodList ≤ next.methodList) : t.methodRun row = .ok ⟨typeRow.methodList, next.methodList⟩ := by
  unfold Tables.methodRun
  rw [hrow]
  simp only [bind, Except.bind, if_pos hlt, hnext, Functor.map, Except.map]
  exact if_neg (UInt32.not_lt.2 hle)

theorem methodRun_last {t : Tables} {row : UInt32} {typeRow : TypeRow} (hrow : t.typeRow row = .ok typeRow)
    (hlast : t.rowCount .typeDef ≤ row) (hle : typeRow.methodList ≤ t.rowCount .methodDef + 1) :
    t.methodRun row = .ok ⟨typeRow.methodList, t.rowCount .methodDef + 1⟩ := by
  unfold Tables.methodRun
  rw [hrow]
  simp only [bind, Except.bind, if_neg (UInt32.not_lt.2 hlast), pure, Except.pure]
  exact if_neg (UInt32.not_lt.2 hle)

theorem rowAfter_le {m n : Nat} (h : m ≤ n) (hn : n + 1 < 2 ^ 32) : rowAfter m ≤ rowAfter n := by
  rw [UInt32.le_iff_toNat_le, toNat_rowAfter (by omega), toNat_rowAfter hn]
  omega

theorem rowAfter_lt {m n : Nat} (h : m < n) (hn : n + 1 < 2 ^ 32) : rowAfter m < rowAfter n := by
  rw [UInt32.lt_iff_toNat_lt, toNat_rowAfter (by omega), toNat_rowAfter hn]
  omega

theorem rowAfter_succ (n : Nat) : rowAfter (n + 1) = rowAfter n + 1 := by
  rw [rowAfter, rowAfter, UInt32.ofNat_add]
  rfl

/-- the methods of the last type are all that were added behind it -/
theorem methodsOf_last_call (hr : Refines log image) (ht : typesIn log < 2 ^ 24) (hm : methodsIn log < 2 ^ 24)
    {before between : List Call} {call : Call} (h : log = before ++ call :: between)
    (htype : call.entry.isType = true) (hbetween : ∀ c ∈ between, c.entry.isType = false) :
    image.reader.methodsOf (rowAfter (typesIn before)) = .ok ⟨rowAfter (methodsIn before),
      rowAfter (methodsIn before + methodsIn between)⟩ := by
  obtain ⟨row, hrow, hstart⟩ := methodList_call hr ht h htype
  have htypes := typesIn_split h htype
  have hmethods := methodsIn_split_type h htype
  rw [typesIn_eq_zero hbetween] at htypes
  have hsize := toNat_typeCount hr ht
  have hafter := toNat_rowAfter (n := typesIn before) (by omega)
  have hle : row.methodList ≤ rowAfter (methodsIn before + methodsIn between) :=
    hstart ▸ rowAfter_le (Nat.le_add_right _ _) (by omega)
  have hstop : image.tables.rowCount .methodDef + 1 = rowAfter (methodsIn before + methodsIn between) := by
    show count image.methods + 1 = _
    rw [← hmethods, count, hr.methods.size, rowAfter, UInt32.ofNat_add]
    rfl
  rw [← hstart, ← hstop]
  rw [← hstop] at hle
  refine methodRun_last hrow (UInt32.le_iff_toNat_le.2 ?_) hle
  show (image.reader.rowCount .typeDef).toNat ≤ _
  omega

/-- the methods of a type end where those of the next one start -/
theorem methodsOf_inner_call (hr : Refines log image) (ht : typesIn log < 2 ^ 24) (hm : methodsIn log < 2 ^ 24)
    {before between more : List Call} {call next : Call} (h : log = (before ++ call :: between) ++ next :: more)
    (htype : call.entry.isType = true) (hbetween : ∀ c ∈ between, c.entry.isType = false)
    (hnext : next.entry.isType = true) :
    image.reader.methodsOf (rowAfter (typesIn before)) = .ok ⟨rowAfter (methodsIn before),
      rowAfter (methodsIn before + methodsIn between)⟩ := by
  have hfirst : log = before ++ call :: (between ++ next :: more) := by rw [h]; simp
  obtain ⟨row, hrow, hstart⟩ := methodList_call hr ht hfirst htype
  obtain ⟨nextRow, hnextRow, hnextStart⟩ := methodList_call hr ht h hnext
  have htypes := typesIn_split h hnext
  have hmethods := methodsIn_split_type h hnext
  rw [@methodsIn_split_type (before ++ call :: between) _ _ _ rfl htype] at hnextStart hmethods
  rw [@typesIn_split (before ++ call :: between) _ _ _ rfl htype, typesIn_eq_zero hbetween, Nat.add_zero]
    at hnextRow htypes
  have hsize := toNat_typeCount hr ht
  have hafter := toNat_rowAfter (n := typesIn before) (by omega)
  have hle : row.methodList ≤ nextRow.methodList := by
    rw [hstart, hnextStart]
    exact rowAfter_le (Nat.le_add_right _ _) (by omega)
  rw [← hstart, ← hnextStart]
  refine methodRun_inner hrow (UInt32.lt_iff_toNat_lt.2 ?_) (by rw [← rowAfter_succ]; exact hnextRow) hle
  show _ < (image.reader.rowCount .typeDef).toNat
  omega

/-- the methods of a type are those that were added between it and the next one -/
theorem methodsOf_call (hr : Refines log image) (ht : typesIn log < 2 ^ 24) (hm : methodsIn log < 2 ^ 24)
    {before later : List Call} {call : Call} (h : log = before ++ call :: later) (htype : call.entry.isType = true) :
    image.reader.methodsOf (rowAfter (typesIn before)) = .ok ⟨rowAfter (methodsIn before),
      rowAfter (methodsIn before + methodsIn (later.takeWhile (!·.entry.isType)))⟩ := by
  have hlater := List.takeWhile_append_dropWhile (p := fun c : Call => !c.entry.isType) (l := later)
  -- the run ends at the next type, if there is one
  have hbetween : ∀ c ∈ later.takeWhile (!·.entry.isType), c.entry.isType = false :=
    fun c hc => by simpa using List.mem_takeWhile_imp hc
  have hnext := List.head?_dropWhile_not (fun c : Call => !c.entry.isType) later
  cases hrest : later.dropWhile (!·.entry.isType) with
  | nil =>
    rw [hrest, List.append_nil] at hlater
    exact methodsOf_last_call hr ht hm (by rw [h, hlater]) htype hbetween
  | cons next more =>
    rw [hrest] at hlater hnext
    have hlog : log = (before ++ call :: later.takeWhile (!·.entry.isType)) ++ next :: more := by
      rw [h, List.append_assoc, List.cons_append, hlater]
    exact methodsOf_inner_call hr ht hm hlog htype hbetween (by simpa using hnext)

theorem exists_last_type {log : List Call} (h : typesIn log ≠ 0) :
    ∃ earlier type between, log = earlier ++ type :: between ∧ type.entry.isType = true ∧
      ∀ c ∈ between, c.entry.isType = false := by
  induction log using List.reverseRecOn with
  | nil => exact absurd rfl h
  | append_singleton log last ih =>
    by_cases hlast : last.entry.isType = true
    · exact ⟨log, last, [], rfl, hlast, nofun⟩
    · have hnone : last.entry.isType = false := by simpa using hlast
      rw [typesIn_concat, hnone] at h
      obtain ⟨earlier, type, between, rfl, htype, hbetween⟩ := ih h
      refine ⟨earlier, type, between ++ [last], by simp, htype, fun c hc => ?_⟩
      rcases List.mem_append.1 hc with hc | hc
      · exact hbetween c hc
      · rw [List.mem_singleton.1 hc]
        exact hnone

theorem isType_of_isMethod {entry : Entry} (h : entry.isMethod = true) : entry.isType = false := by
  cases hentry : entry.isType with
  | false => rfl
  | true => exact absurd (h.symm.trans (isMethod_of_isType hentry)) (by decide)

/-- the methods of the last type before a method go on behind that method -/
theorem methodsOf_around_call (hr : Refines log image) (ht : typesIn log < 2 ^ 24) (hm : methodsIn log < 2 ^ 24)
    {earlier between later : List Call} {type call : Call} (h : log = (earlier ++ type :: between) ++ call :: later)
    (htype : type.entry.isType = true) (hbetween : ∀ c ∈ between, c.entry.isType = false)
    (hmethod : call.entry.isMethod = true) :
    ∃ more, methodsIn (earlier ++ type :: between) + (1 + more) ≤ methodsIn log ∧
      image.reader.methodsOf (rowAfter (typesIn earlier)) = .ok ⟨rowAfter (methodsIn earlier),
        rowAfter (methodsIn (earlier ++ type :: between) + (1 + more))⟩ := by
  have hlog : log = earlier ++ type :: (between ++ call :: later) := by rw [h]; simp
  have hmethods := methodsIn_split h
  have hmore : methodsIn (later.takeWhile (!·.entry.isType)) ≤ methodsIn later :=
    (List.takeWhile_sublist _).countP_le
  rw [hmethod, if_pos rfl] at hmethods
  refine ⟨methodsIn (later.takeWhile (!·.entry.isType)), by omega, ?_⟩
  have htake : (between ++ call :: later).takeWhile (!·.entry.isType) =
      between ++ call :: later.takeWhile (!·.entry.isType) := by
    rw [List.takeWhile_append_of_pos fun c hc => by simp [hbetween c hc], List.takeWhile_cons,
      isType_of_isMethod hmethod]
    rfl
  have hbefore := @methodsIn_split_type (earlier ++ type :: between) _ _ _ rfl htype
  have hfirst := @methodsIn_split (call :: later.takeWhile (!·.entry.isType)) [] _ _ rfl
  rw [hmethod, if_pos rfl, show methodsIn [] = 0 from rfl, Nat.zero_add] at hfirst
  have hstop : methodsIn earlier + methodsIn ((between ++ call :: later).takeWhile (!·.entry.isType)) =
      methodsIn (earlier ++ type :: between) + (1 + methodsIn (later.takeWhile (!·.entry.isType))) :=
    calc methodsIn earlier + methodsIn ((between ++ call :: later).takeWhile (!·.entry.isType))
        = methodsIn earlier + methodsIn (between ++ call :: later.takeWhile (!·.entry.isType)) := by rw [htake]
      _ = methodsIn earlier + methodsIn between + methodsIn (call :: later.takeWhile (!·.entry.isType)) := by
        rw [methodsIn_append, Nat.add_assoc]
      _ = methodsIn (earlier ++ type :: between) + (1 + methodsIn (later.takeWhile (!·.entry.isType))) := by
        rw [hbefore, hfirst]
  rw [methodsOf_call hr ht hm hlog htype, hstop]

/-- a method belongs to the type that was added last before it -/
theorem ownerOf_call (hr : Refines log image) (ho : image.reader.toTables.Ordered) (ht : typesIn log < 2 ^ 24)
    (hm : methodsIn log < 2 ^ 24) {earlier between later : List Call} {type call : Call}
    (h : log = (earlier ++ type :: between) ++ call :: later) (htype : type.entry.isType = true)
    (hbetween : ∀ c ∈ between, c.entry.isType = false) (hmethod : call.entry.isMethod = true) :
    image.reader.ownerOf (rowAfter (methodsIn (earlier ++ type :: between))) = .ok (rowAfter (typesIn earlier)) := by
  obtain ⟨more, hmore, hrun⟩ := methodsOf_around_call hr ht hm h htype hbetween hmethod
  have hlog : log = earlier ++ type :: (between ++ call :: later) := by rw [h]; simp
  have htypes := typesIn_split hlog htype
  have hbefore := @methodsIn_split_type (earlier ++ type :: between) _ _ _ rfl htype
  generalize methodsIn (earlier ++ type :: between) = n at *
  have hsize := toNat_typeCount hr ht
  have hcount := toNat_methodCount hr hm
  have hrow := toNat_rowAfter (n := typesIn earlier) (by omega)
  obtain ⟨run, hrun', -, -, -, howned⟩ := Tables.methodRun_spec ho
    (show (image.reader.rowCount .methodDef).toNat + 1 < 2 ^ 32 by omega) (rowAfter_ne_zero (n := typesIn earlier) (by omega))
    (UInt32.le_iff_toNat_le.2 (show _ ≤ (image.reader.rowCount .typeDef).toNat by omega))
  obtain rfl : _ = run := Except.ok.inj (hrun.symm.trans hrun')
  -- the row of the method lies in the run of the type, and a run has just the methods that its type owns
  exact (howned (rowAfter n) (rowAfter_ne_zero (by omega))).1
    ⟨rowAfter_le (by omega) (by omega), rowAfter_lt (by omega) (by omega)⟩

/-- a method has a type before it, and belongs to the last one -/
theorem owner_call (hr : Refines log image) (ho : image.reader.toTables.Ordered) (ht : typesIn log < 2 ^ 24)
    (hm : methodsIn log < 2 ^ 24) {before later : List Call} {call : Call} (h : log = before ++ call :: later)
    (hmethod : call.entry.isMethod = true) :
    ∃ earlier type between, before = earlier ++ type :: between ∧ type.entry.isType = true ∧
      (∀ c ∈ between, c.entry.isType = false) ∧
      image.reader.ownerOf (rowAfter (methodsIn before)) = .ok (rowAfter (typesIn earlier)) := by
  obtain ⟨earlier, type, between, rfl, htype, hbetween⟩ := exists_last_type (hr.owned before call later h hmethod)
  exact ⟨earlier, type, between, rfl, htype, hbetween, ownerOf_call hr ho ht hm h htype hbetween hmethod⟩

/-! ## Which calls are accepted -/

/-- a call is accepted exactly if it fits what was added before it -/
theorem Refines.step_isOk_iff (hr : Refines log image) (entry : Entry) :
    (∃ token, (image.step entry).2 = .ok token) ↔ entry.Fits log := by
  have htypes : image.types.size = typesIn log := hr.types.size
  have hmethods : image.methods.size = methodsIn log := hr.methods.size
  constructor
  · rintro ⟨token, h⟩
    rcases step_cases image entry with ⟨token', image', hstep, hadded⟩ | ⟨e, hstep⟩
    · cases hadded with
      | nestedType encloser name flags selects row_ne row_le => exact ⟨selects, row_ne, htypes ▸ row_le⟩
      | method name flags some_type =>
        rw [htypes] at some_type
        exact some_type
      | methodParams owner names selects row_ne row_le => exact ⟨row_ne, .inl ⟨selects, hmethods ▸ row_le⟩⟩
      | typeParams owner names selects row_ne row_le => exact ⟨row_ne, .inr ⟨selects, htypes ▸ row_le⟩⟩
      | stringAttribute parent space name argument value encoded => exact ⟨value, encoded⟩
      | _ => trivial
    · rw [hstep] at h
      cases h
  · intro h
    have hok : ∀ {image' : Image} {token : Option Token}, Added image entry image' token →
        ∃ token, (image.step entry).2 = .ok token := fun hadded => ⟨_, congrArg Prod.snd (step_of_added hadded)⟩
    rcases entry with name | name | ⟨space, name, flags⟩ | ⟨encloser, name, flags⟩ | ⟨name, flags⟩ | ⟨owner, names⟩ |
      ⟨parent, space, name, argument⟩ | ⟨parent, space, name, value⟩
    · exact hok (.assembly name)
    · exact hok (.file name)
    · exact hok (.type space name flags)
    · exact hok (.nestedType encloser name flags h.1 h.2.1 (htypes ▸ h.2.2))
    · exact hok (.method name flags (by rw [htypes]; exact h))
    · rcases h with ⟨h0, ⟨hs, hle⟩ | ⟨hs, hle⟩⟩
      · exact hok (.methodParams owner names hs h0 (by rw [hmethods]; exact hle))
      · exact hok (.typeParams owner names hs h0 (by rw [htypes]; exact hle))
    · obtain ⟨value, hv⟩ := h
      exact hok (.stringAttribute parent space name argument value hv)
    · exact hok (.blobAttribute parent space name value)

/-! ## All that an image tells -/

theorem nestedTypesIn_le (log : List Call) : nestedTypesIn log ≤ typesIn log :=
  List.countP_mono_left fun c _ h => by
    cases hentry : c.entry with
    | nestedType encloser name flags => rfl
    | _ => rw [hentry] at h; cases h

/-- tables have as many rows as were added to them -/
theorem toNat_rowCount (hr : Refines log image) (ht : typesIn log < 2 ^ 24) (hm : methodsIn log < 2 ^ 24)
    (ha : (attributesIn log).length < 2 ^ 32) (hf : (filesIn log).length < 2 ^ 32) (table : TableId) :
    (image.reader.rowCount table).toNat = rowsIn log table := by
  have hn := nestedTypesIn_le log
  have hcount : ∀ {α : Type} (rows : Array α) {n : Nat}, rows.size = n → n < 2 ^ 32 → (count rows).toNat = n :=
    fun rows n h hlt => (toNat_count (h ▸ hlt)).trans h
  cases table with
  | typeDef => exact toNat_typeCount hr ht
  | methodDef => exact toNat_methodCount hr hm
  | nestedClass => exact hcount image.nesting hr.nested (Nat.lt_of_le_of_lt hn (Nat.lt_trans ht (by decide)))
  | customAttribute => exact hcount image.attributes (congrArg List.length hr.attributes) ha
  | file => exact hcount image.files (congrArg List.length hr.files) hf
  | assembly =>
    show (if image.assembly.isSome then (1 : UInt32) else 0).toNat = if (assemblyIn log).isSome then 1 else 0
    rw [hr.assembly]
    split <;> rfl
  | _ => rfl

/-- an image that is as its log says tells it -/
theorem Refines.tells (hr : Refines log image) (ho : image.reader.toTables.Ordered) (hn : image.NestedInOrder)
    (ht : typesIn log < 2 ^ 24) (hm : methodsIn log < 2 ^ 24) (ha : (attributesIn log).length < 2 ^ 32)
    (hf : (filesIn log).length < 2 ^ 32) : Tells log image.reader := by
  have horder := hn.typesInOrder (by rw [hr.types.size]; exact ht)
  have hencloser : ∀ row outer, image.reader.encloser row = some outer ↔ NestedAt log row outer :=
    fun row outer => hn.encloser_iff.trans (hr.nesting row outer)
  exact
    { types := by
        intro before call later h row hrow
        have htype : call.entry.isType = true := by rw [← Entry.isSome_typeRow?, hrow]; rfl
        obtain ⟨htoken, hat⟩ := typeRow_call hr ht h hrow
        exact ⟨htoken, hat, methodsOf_call hr ht hm h htype⟩
      methods := by
        intro before call later h row hrow
        have hmethod : call.entry.isMethod = true := by rw [← Entry.isSome_methodRow?, hrow]; rfl
        obtain ⟨htoken, hat⟩ := methodRow_call hr hm h hrow
        exact ⟨htoken, hat, owner_call hr ho ht hm h hmethod⟩
      encloser := hencloser
      outward := by
        intro row outer h
        obtain ⟨h0, hlt, -⟩ := horder.outward row outer ((hencloser row outer).2 h)
        exact ⟨h0, hlt⟩
      nestedIn := fun outer =>
        ⟨horder.listedInOrder outer, fun row => (horder.listed outer row).trans (hencloser row outer)⟩
      attributes := by
        intro parent
        rw [attributes_eq_filter, hr.attributes]
      files := hr.files
      assembly := hr.assembly
      rowCount := toNat_rowCount hr ht hm ha hf }

/-- **After any calls an image tells what was added.** A call is accepted exactly if it fits what was added before it, and
one that is refused leaves the image as it was. -/
theorem image_refines_calls (file : String) (id : ModuleId) (entries : List Entry) (image : Image) (log : List Call)
    (himage : image = ((empty file id).addAll entries).1) (hlog : log = accepted (empty file id) entries)
    (ht : typesIn log < 2 ^ 24) (hm : methodsIn log < 2 ^ 24) (ha : (attributesIn log).length < 2 ^ 32)
    (hf : (filesIn log).length < 2 ^ 32) :
    (∀ (before : Image) (entry : Entry) (e : Error), (before.step entry).2 = .error e → (before.step entry).1 = before) ∧
      (∀ done entry rest, entries = done ++ entry :: rest →
        ((∃ token, (((empty file id).addAll done).1.step entry).2 = .ok token) ↔
          entry.Fits (accepted (empty file id) done))) ∧
      Tells log image.reader := by
  subst himage hlog
  have hr : Refines (accepted (empty file id) entries) ((empty file id).addAll entries).1 :=
    refines_addAll entries (refines_empty file id) ht hm
  have hg := grown_addAll (grown_empty file id) entries (by rw [hr.types.size]; exact ht)
    (by rw [hr.methods.size]; exact hm)
  have ho := hg.ordered (by rw [hr.types.size]; exact ht) (by rw [hr.methods.size]; exact hm)
  refine ⟨fun _ _ _ h => step_error h, ?_, hr.tells ho hg.nestedInOrder ht hm ha hf⟩
  rintro done entry rest rfl
  rw [accepted_append] at ht hm
  rw [typesIn_append] at ht
  rw [methodsIn_append] at hm
  have hdone : Refines (accepted (empty file id) done) ((empty file id).addAll done).1 :=
    refines_addAll done (refines_empty file id) (Nat.lt_of_le_of_lt (Nat.le_add_right _ _) ht)
      (Nat.lt_of_le_of_lt (Nat.le_add_right _ _) hm)
  exact hdone.step_isOk_iff entry

/-- a module with a nested type, a method for each type, and two calls that are refused -/
def refusingEntries : List Entry :=
  [.method "Early" 0, .type "Demo" "Program" 1, .method "Foo" 0x96, .nestedType (.ofParts .typeDef 9) "Lost" 3,
    .nestedType (.ofParts .typeDef 1) "<Foo>d__0" 3, .method "MoveNext" 0x1E1,
    .genericParams (.ofParts .methodDef 1) ["T"], .genericParams (.ofParts .methodDef 1) ["U"],
    .attributeBlob (.ofParts .methodDef 1) "Demo" "Marker" [1, 0, 0, 0]]

/-- the log that the calls leave behind -/
def refusingLog : List Call :=
  [⟨.type "Demo" "Program" 1, some (.ofParts .typeDef 1)⟩, ⟨.method "Foo" 0x96, some (.ofParts .methodDef 1)⟩,
    ⟨.nestedType (.ofParts .typeDef 1) "<Foo>d__0" 3, some (.ofParts .typeDef 2)⟩,
    ⟨.method "MoveNext" 0x1E1, some (.ofParts .methodDef 2)⟩, ⟨.genericParams (.ofParts .methodDef 1) ["T"], none⟩,
    ⟨.genericParams (.ofParts .methodDef 1) ["U"], none⟩,
    ⟨.attributeBlob (.ofParts .methodDef 1) "Demo" "Marker" [1, 0, 0, 0], none⟩]

/-- the calls that are refused leave no trace, and the parameters set last are the ones that the method has -/
theorem image_refines_calls_refusing :
    Tells refusingLog ((empty "Sample.dll" ⟨.replicate 16 7⟩).addAll refusingEntries).1.reader ∧
      ((empty "Sample.dll" ⟨.replicate 16 7⟩).addAll refusingEntries).1.reader.methodRow 1 =
        .ok ⟨0x96, "Foo", ["U"]⟩ ∧
      ¬∃ token, ((empty "Sample.dll" ⟨.replicate 16 7⟩).step (.method "Early" 0)).2 = .ok token := by
  obtain ⟨-, haccepted, htells⟩ := image_refines_calls "Sample.dll" ⟨.replicate 16 7⟩ refusingEntries _ refusingLog
    rfl rfl (by decide) (by decide) (by decide) (by decide)
  refine ⟨htells, (htells.methods (refusingLog.take 1) _ _ rfl ⟨0x96, "Foo", ["U"]⟩ rfl).2.1, fun h => ?_⟩
  exact (haccepted [] (.method "Early" 0) _ rfl).1 h rfl

end FrameSymbols.Image
