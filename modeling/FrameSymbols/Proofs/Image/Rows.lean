/-
The rows of an image: which there are, that an image reports the others as missing, and what is looked up by row.

Which type encloses a type is what the last entry for it says (`encloser_eq_find?`), and what is applied to something are
the attributes with that parent, in order (`attributes_eq_filter`).
-/
import FrameSymbols.Image
import FrameSymbols.Proofs.Module.Enclosing
import Mathlib.Algebra.Group.Nat.Defs

namespace FrameSymbols.Image

theorem toNat_count {α : Type} {rows : Array α} (h : rows.size < 2 ^ 32) : (count rows).toNat = rows.size := by
  rw [count, UInt32.toNat_ofNat']
  exact Nat.mod_eq_of_lt h

theorem rowOf_eq_ok_iff {α : Type} {table : TableId} {rows : Array α} {row : UInt32} {a : α} :
    rowOf table rows row = .ok a ↔ row ≠ 0 ∧ rows[row.toNat - 1]? = some a := by
  unfold rowOf
  split
  · next h => simp [h]
  · next h =>
    split
    · next b hb => simp [h, hb]
    · next hb => simp [hb]

theorem row_le_of_rowOf {α : Type} {table : TableId} {rows : Array α} {row : UInt32} {a : α}
    (hs : rows.size < 2 ^ 32) (h : rowOf table rows row = .ok a) : row ≠ 0 ∧ row ≤ count rows := by
  obtain ⟨h0, ha⟩ := rowOf_eq_ok_iff.1 h
  refine ⟨h0, UInt32.le_iff_toNat_le.2 ?_⟩
  obtain ⟨hlt, -⟩ := Array.getElem?_eq_some_iff.1 ha
  rw [toNat_count hs]
  omega

theorem rowOf_answers {α : Type} {table : TableId} {rows : Array α} {row : UInt32} (hs : rows.size < 2 ^ 32)
    (h0 : row ≠ 0) (hle : row ≤ count rows) : ∃ a, rowOf table rows row = .ok a := by
  have hn := UInt32.le_iff_toNat_le.1 hle
  rw [toNat_count hs] at hn
  have h1 : row.toNat ≠ 0 := fun h => h0 (UInt32.toNat_inj.1 h)
  have hlt : row.toNat - 1 < rows.size := by omega
  exact ⟨rows[row.toNat - 1], rowOf_eq_ok_iff.2 ⟨h0, Array.getElem?_eq_getElem hlt⟩⟩

theorem bounded_of_size {image : Image} (ht : image.types.size < 2 ^ 24) (hm : image.methods.size < 2 ^ 24) :
    image.reader.Bounded where
  types := by
    refine UInt32.le_iff_toNat_le.2 ?_
    show (count image.types).toNat ≤ 0xFFFFFF
    rw [toNat_count (by omega)]
    omega
  methods := by
    refine UInt32.le_iff_toNat_le.2 ?_
    show (count image.methods).toNat ≤ 0xFFFFFF
    rw [toNat_count (by omega)]
    omega
  typeRow := fun _ _ h => row_le_of_rowOf (show image.types.size < 2 ^ 32 by omega) h
  methodRow := fun _ _ h => row_le_of_rowOf (show image.methods.size < 2 ^ 32 by omega) h

/-! ## What is looked up by row -/

/-- the encloser that was recorded last for a row counts -/
theorem getElem?_foldl_keepEncloser (entries : List (UInt32 × UInt32)) (enclosers : Std.TreeMap UInt32 UInt32)
    (row : UInt32) : (entries.foldl keepEncloser enclosers)[row]? =
      ((entries.reverse.find? (·.1 == row)).map (·.2)).or enclosers[row]? := by
  induction entries generalizing enclosers with
  | nil => simp
  | cons entry entries ih =>
    rw [List.foldl_cons, ih, keepEncloser, Std.TreeMap.getElem?_insert, List.reverse_cons, List.find?_append,
      List.find?_singleton]
    by_cases h : entry.1 = row <;> cases entries.reverse.find? (·.1 == row) <;> simp [h]

/-- a type is nested in what the last entry for it says -/
theorem encloser_eq_find? (image : Image) (row : UInt32) :
    image.reader.encloser row = (image.nesting.toList.reverse.find? (·.1 == row)).map (·.2) := by
  show (image.nesting.foldl keepEncloser {})[row]? = _
  rw [← Array.foldl_toList, getElem?_foldl_keepEncloser, Std.TreeMap.getElem?_emptyc, Option.or_none]

theorem mem_nesting_of_encloser {image : Image} {row outer : UInt32} (h : image.reader.encloser row = some outer) :
    (row, outer) ∈ image.nesting.toList := by
  rw [encloser_eq_find?] at h
  obtain ⟨entry, hentry, rfl⟩ := Option.map_eq_some_iff.1 h
  have hrow : entry.1 = row := by simpa using List.find?_some hentry
  exact hrow ▸ List.mem_reverse.1 (List.mem_of_find?_eq_some hentry)

/-- the attributes of a parent keep their order -/
theorem getD_foldl_keepApplied (rows : List AttributeRow) (applied : Std.TreeMap UInt32 (Array AttributeRow))
    (parent : Token) : ((rows.foldl keepApplied applied).getD parent.value #[]).toList =
      (applied.getD parent.value #[]).toList ++ rows.filter (·.parent == parent) := by
  induction rows generalizing applied with
  | nil => simp
  | cons row rows ih =>
    rw [List.foldl_cons, ih, keepApplied, Std.TreeMap.getD_insert, List.filter_cons]
    by_cases h : row.parent = parent
    · simp [h]
    · have hvalue : row.parent.value ≠ parent.value := fun hv => h (congrArg Token.mk hv)
      simp [h, hvalue]

/-- what is applied to something are the attributes with that parent -/
theorem attributes_eq_filter (image : Image) (parent : Token) :
    image.reader.attributes parent = image.attributes.toList.filter (·.parent == parent) := by
  show ((image.attributes.foldl keepApplied {}).getD parent.value #[]).toList = _
  rw [← Array.foldl_toList, getD_foldl_keepApplied, Std.TreeMap.getD_emptyc, Array.toList_empty, List.nil_append]

/-- a module with an iterator: the method of type 1 declares type 2, which is nested in type 1 and has the step method -/
def sample : Image :=
  ((empty "Sample.dll" ⟨.replicate 16 7⟩).addAll
    [.assembly "Sample", .type "Demo" "Program" 1, .method "Foo" 0x96,
      .nestedType (.ofParts .typeDef 1) "<Foo>d__0" 3, .method "MoveNext" 0x1E1,
      .attribute (.ofParts .methodDef 1) "System.Runtime.CompilerServices" "IteratorStateMachineAttribute"
        (some "Demo.Program+<Foo>d__0")]).1

/-- the view of an image that imports every member -/
def view (image : Image) : LoadedModule := .ofHeader image.reader image.header .all

theorem load_reader (image : Image) : LoadedModule.load image.reader .all = .ok image.view := rfl

/-- the step method of the sample can be resolved -/
theorem sample_resolves :
    ∃ x, ((sample.view.resolveMethod (.ofParts .methodDef 2)).runFrom .empty).1 = .ok x := by
  have hok : ((sample.view.resolveMethod (.ofParts .methodDef 2)).runFrom .empty).1.isOk = true := by decide +kernel
  cases h : ((sample.view.resolveMethod (.ofParts .methodDef 2)).runFrom .empty).1 with
  | error e => rw [h] at hok; cases hok
  | ok x => exact ⟨x, rfl⟩

end FrameSymbols.Image
