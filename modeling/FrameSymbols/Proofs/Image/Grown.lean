/-
What holds of every image that was grown entry by entry.

The runs of the types start in the order of the types, and a nested type comes after the type that encloses it
(`Grown`, and `NestedInOrder` for the nesting alone). Each entry does one of a few things to the rows (`Added.growth`)
and keeps this as long as the rows fit into tokens, so it holds of whatever is added to an empty image (`grown_addAll`).
Such an image is a regular reader (`Grown.regular`), and however many methods it has its types are in order
(`NestedInOrder.typesInOrder`).
-/
import FrameSymbols.Proofs.Image.Rows
import FrameSymbols.Proofs.Image.Step
import FrameSymbols.Proofs.Module.Regular
import Mathlib.Data.List.Pairwise

namespace FrameSymbols.Image

/-- where the runs of the types start, in table order -/
def starts (image : Image) : List UInt32 := image.types.toList.map (·.methodList)

/-- runs start in row order, no later than behind the last method, and nested rows come after the rows they are nested
in -/
structure Grown (image : Image) : Prop where
  ascending : image.starts.Pairwise (· ≤ ·)
  starts_le : ∀ start ∈ image.starts, start ≠ 0 ∧ start.toNat ≤ image.methods.size + 1
  nestedAscending : image.nesting.toList.Pairwise fun entry later => entry.1 < later.1
  nestedRange : ∀ entry ∈ image.nesting.toList,
    entry.2 ≠ 0 ∧ entry.2 < entry.1 ∧ entry.1.toNat ≤ image.types.size

/-- nested rows come after the rows they are nested in, in row order -/
structure NestedInOrder (image : Image) : Prop where
  ascending : image.nesting.toList.Pairwise fun entry later => entry.1 < later.1
  range : ∀ entry ∈ image.nesting.toList, entry.2 ≠ 0 ∧ entry.2 < entry.1 ∧ entry.1.toNat ≤ image.types.size

theorem Grown.nestedInOrder {image : Image} (h : image.Grown) : image.NestedInOrder := ⟨h.nestedAscending, h.nestedRange⟩

theorem nestedInOrder_empty (name : String) (id : ModuleId) : (empty name id).NestedInOrder := by
  constructor <;> simp [empty]

theorem grown_empty (name : String) (id : ModuleId) : (empty name id).Grown := by
  constructor <;> simp [empty, starts]

/-! ## One entry -/

/-- generic parameters do not move a run -/
theorem starts_modify (image : Image) (i : Nat) (names : List String) :
    ((image.types.modify i ({ · with genericParams := names })).toList.map (·.methodList)) = image.starts := by
  rw [Array.toList_modify, starts]
  refine List.ext_getElem? ?_
  intro j
  simp only [List.getElem?_map, List.getElem?_modify]
  split
  · cases image.types.toList[j]? <;> rfl
  · simp

/-- what an entry does to the runs and to the nesting -/
inductive Growth (image image' : Image) : Prop where
  /-- no row is added -/
  | kept (starts : image'.starts = image.starts) (types : image'.types.size = image.types.size)
      (methods : image'.methods.size = image.methods.size) (nesting : image'.nesting = image.nesting)
  /-- a type is added, and its run is still empty -/
  | topLevel (starts : image'.starts = image.starts ++ [count image.methods + 1])
      (types : image'.types.size = image.types.size + 1) (methods : image'.methods = image.methods)
      (nesting : image'.nesting = image.nesting)
  /-- so is a type nested in another -/
  | nested (outer : UInt32) (outer_ne : outer ≠ 0) (outer_le : outer.toNat ≤ image.types.size)
      (starts : image'.starts = image.starts ++ [count image.methods + 1])
      (types : image'.types.size = image.types.size + 1) (methods : image'.methods = image.methods)
      (nesting : image'.nesting = image.nesting.push ((Token.ofParts .typeDef (count image'.types)).row, outer))
  /-- a method is added behind all others -/
  | method (starts : image'.starts = image.starts) (types : image'.types = image.types)
      (methods : image'.methods.size = image.methods.size + 1) (nesting : image'.nesting = image.nesting)

theorem Added.growth {image image' : Image} {entry : Entry} {token : Option Token} (h : Added image entry image' token) :
    Growth image image' := by
  have hpush : ∀ row : TypeRow,
      (image.types.push row).toList.map (·.methodList) = image.starts ++ [row.methodList] := by
    simp [starts]
  cases h with
  | type space name flags => exact .topLevel (hpush _) (by simp [withType]) rfl rfl
  | nestedType encloser name flags selects row_ne row_le =>
    exact .nested encloser.row row_ne row_le (hpush _) (by simp [withType]) rfl rfl
  | method name flags some_type => exact .method rfl rfl (by simp) rfl
  | methodParams owner names selects row_ne row_le => exact .kept rfl rfl (by simp) rfl
  | typeParams owner names selects row_ne row_le => exact .kept (starts_modify image _ names) (by simp) rfl rfl
  | _ => exact .kept rfl rfl rfl rfl

theorem Growth.size_le {image image' : Image} (g : Growth image image') :
    image.types.size ≤ image'.types.size ∧ image.methods.size ≤ image'.methods.size := by
  cases g with
  | kept _ types methods _ => exact ⟨by omega, by omega⟩
  | topLevel _ types methods _ => exact ⟨by omega, Nat.le_of_eq (by rw [methods])⟩
  | nested _ _ _ _ types methods _ => exact ⟨by omega, Nat.le_of_eq (by rw [methods])⟩
  | method _ types methods _ => exact ⟨Nat.le_of_eq (by rw [types]), by omega⟩

/-- a run that starts behind the last method keeps the order -/
theorem Grown.starts_append {image : Image} (h : image.Grown) (hm : image.methods.size < 2 ^ 24) :
    (image.starts ++ [count image.methods + 1]).Pairwise (· ≤ ·) ∧
      ∀ start ∈ image.starts ++ [count image.methods + 1], start ≠ 0 ∧ start.toNat ≤ image.methods.size + 1 := by
  have hnew : (count image.methods + 1).toNat = image.methods.size + 1 := by
    have hcount := @toNat_count _ image.methods (by omega)
    calc (count image.methods + 1).toNat = (count image.methods).toNat + 1 := Tables.toNat_add_one (by omega)
      _ = image.methods.size + 1 := by rw [hcount]
  constructor
  · rw [List.pairwise_append]
    refine ⟨h.ascending, List.pairwise_singleton _ _, ?_⟩
    intro start hs new hn
    rw [List.mem_singleton.1 hn]
    exact UInt32.le_iff_toNat_le.2 (by rw [hnew]; exact (h.starts_le start hs).2)
  · intro start hs
    rcases List.mem_append.1 hs with hs | hs
    · exact h.starts_le start hs
    · rw [List.mem_singleton.1 hs]
      refine ⟨?_, Nat.le_of_eq hnew⟩
      intro h0
      rw [h0] at hnew
      simp at hnew

/-- a nested type is added behind all others -/
theorem Growth.nestedInOrder {image image' : Image} (g : Growth image image') (h : image.NestedInOrder)
    (ht : image'.types.size < 2 ^ 24) : image'.NestedInOrder := by
  have hwider : ∀ {size}, image.types.size ≤ size → ∀ entry ∈ image.nesting.toList,
      entry.2 ≠ 0 ∧ entry.2 < entry.1 ∧ entry.1.toNat ≤ size := by
    intro size hsize entry he
    obtain ⟨h0, hlt, hle⟩ := h.range entry he
    exact ⟨h0, hlt, Nat.le_trans hle hsize⟩
  cases g with
  | kept starts types methods nesting =>
    constructor
    · rw [nesting]; exact h.ascending
    · rw [nesting]; exact hwider (Nat.le_of_eq types.symm)
  | topLevel starts types methods nesting =>
    constructor
    · rw [nesting]; exact h.ascending
    · rw [nesting]; exact hwider (by omega)
  | nested outer outer_ne outer_le starts types methods nesting =>
    have hrow : (Token.ofParts .typeDef (count image'.types)).row.toNat = image.types.size + 1 := by
      have hc : (count image'.types).toNat = image'.types.size := toNat_count (by omega)
      have hle : count image'.types ≤ 0xFFFFFF :=
        UInt32.le_iff_toNat_le.2 (by simp only [hc, UInt32.reduceToNat]; omega)
      rw [Token.row_ofParts_of_le hle, hc, types]
    constructor
    · rw [nesting, Array.toList_push, List.pairwise_append]
      refine ⟨h.ascending, List.pairwise_singleton _ _, ?_⟩
      intro entry he new hn
      rw [List.mem_singleton.1 hn]
      have := (h.range entry he).2.2
      exact UInt32.lt_iff_toNat_lt.2 (by simp only [hrow]; omega)
    · rw [nesting, types, Array.toList_push]
      intro entry he
      rcases List.mem_append.1 he with he | he
      · exact hwider (Nat.le_succ _) entry he
      · rw [List.mem_singleton.1 he]
        exact ⟨outer_ne, UInt32.lt_iff_toNat_lt.2 (by simp only [hrow]; omega), Nat.le_of_eq hrow⟩
  | method starts types methods nesting =>
    constructor
    · rw [nesting]; exact h.ascending
    · rw [nesting]; exact hwider (Nat.le_of_eq (by rw [types]))

theorem Growth.grown {image image' : Image} (g : Growth image image') (h : image.Grown)
    (ht : image'.types.size < 2 ^ 24) (hm : image'.methods.size < 2 ^ 24) : image'.Grown := by
  obtain ⟨hascending, hrange⟩ := g.nestedInOrder h.nestedInOrder ht
  have hstarts : image'.starts.Pairwise (· ≤ ·) ∧
      ∀ start ∈ image'.starts, start ≠ 0 ∧ start.toNat ≤ image'.methods.size + 1 := by
    cases g with
    | kept starts types methods nesting =>
      rw [starts, methods]
      exact ⟨h.ascending, h.starts_le⟩
    | topLevel starts types methods nesting | nested outer outer_ne outer_le starts types methods nesting =>
      rw [starts, methods]
      exact h.starts_append (by rw [← methods]; exact hm)
    | method starts types methods nesting =>
      rw [starts, methods]
      refine ⟨h.ascending, fun start hs => ?_⟩
      obtain ⟨h0, hle⟩ := h.starts_le start hs
      exact ⟨h0, Nat.le_succ_of_le hle⟩
  exact ⟨hstarts.1, hstarts.2, hascending, hrange⟩

/-! ## All entries -/

theorem growth_step (image : Image) (entry : Entry) : Growth image (image.step entry).1 := by
  rcases step_cases image entry with ⟨token, image', hstep, hadded⟩ | ⟨e, hstep⟩
  · rw [hstep]
    exact hadded.growth
  · rw [hstep]
    exact .kept rfl rfl rfl rfl

theorem size_le_addAll (entries : List Entry) (image : Image) :
    image.types.size ≤ (image.addAll entries).1.types.size ∧
      image.methods.size ≤ (image.addAll entries).1.methods.size := by
  induction entries generalizing image with
  | nil => exact ⟨Nat.le_refl _, Nat.le_refl _⟩
  | cons entry entries ih =>
    obtain ⟨h1, h2⟩ := (growth_step image entry).size_le
    obtain ⟨h3, h4⟩ := ih (image.step entry).1
    exact ⟨Nat.le_trans h1 h3, Nat.le_trans h2 h4⟩

/-- whatever is added to a grown image, the result is grown, if the rows fit into tokens -/
theorem grown_addAll {image : Image} (h : image.Grown) (entries : List Entry)
    (ht : (image.addAll entries).1.types.size < 2 ^ 24) (hm : (image.addAll entries).1.methods.size < 2 ^ 24) :
    (image.addAll entries).1.Grown := by
  induction entries generalizing image with
  | nil => exact h
  | cons entry entries ih =>
    obtain ⟨h1, h2⟩ := size_le_addAll entries (image.step entry).1
    exact ih ((growth_step image entry).grown h (Nat.lt_of_le_of_lt h1 ht) (Nat.lt_of_le_of_lt h2 hm)) ht hm

theorem nestedInOrder_addAll {image : Image} (h : image.NestedInOrder) (entries : List Entry)
    (ht : (image.addAll entries).1.types.size < 2 ^ 24) : (image.addAll entries).1.NestedInOrder := by
  induction entries generalizing image with
  | nil => exact h
  | cons entry entries ih =>
    obtain ⟨h1, -⟩ := size_le_addAll entries (image.step entry).1
    exact ih ((growth_step image entry).nestedInOrder h (Nat.lt_of_le_of_lt h1 ht)) ht

/-! ## Grown images as readers -/

variable {image : Image}

/-- where the nested rows ascend, no two entries are for one row -/
theorem NestedInOrder.encloser_unique (h : image.NestedInOrder) {row outer outer' : UInt32}
    (hmem : (row, outer) ∈ image.nesting.toList) (hmem' : (row, outer') ∈ image.nesting.toList) : outer = outer' := by
  have hkeys : image.nesting.toList.Pairwise fun entry other => entry.1 ≠ other.1 :=
    h.ascending.imp fun hlt => UInt32.ne_of_lt hlt
  have hsymm : Std.Symm fun entry other : UInt32 × UInt32 => entry.1 ≠ other.1 := ⟨fun _ _ hn => hn.symm⟩
  by_contra hne
  exact hkeys.forall hmem hmem' (fun he => hne (Prod.mk.inj he).2) rfl

theorem NestedInOrder.encloser_iff (h : image.NestedInOrder) {row outer : UInt32} :
    image.reader.encloser row = some outer ↔ (row, outer) ∈ image.nesting.toList := by
  refine ⟨mem_nesting_of_encloser, fun hmem => ?_⟩
  cases he : image.reader.encloser row with
  | none =>
    rw [encloser_eq_find?, Option.map_eq_none_iff, List.find?_eq_none] at he
    exact absurd (beq_self_eq_true row) (he (row, outer) (List.mem_reverse.2 hmem))
  | some outer' => rw [h.encloser_unique hmem (mem_nesting_of_encloser he)]

theorem starts_getElem? {row : UInt32} {typeRow : TypeRow} (hr : image.reader.typeRow row = .ok typeRow) :
    image.starts[row.toNat - 1]? = some typeRow.methodList := by
  have ha : image.types[row.toNat - 1]? = some typeRow := (rowOf_eq_ok_iff.1 hr).2
  rw [starts, List.getElem?_map, Array.getElem?_toList, ha]
  rfl

theorem Grown.ordered (h : image.Grown) (ht : image.types.size < 2 ^ 24) (hm : image.methods.size < 2 ^ 24) :
    image.reader.toTables.Ordered where
  decodes := fun row h0 hle => rowOf_answers (show image.types.size < 2 ^ 32 by omega) h0 hle
  ascending := fun row row' typeRow typeRow' h0 hle _ hr hr' => by
    have hs := starts_getElem? hr
    have hs' := starts_getElem? hr'
    have hn := UInt32.le_iff_toNat_le.1 hle
    rcases Nat.lt_or_ge (row.toNat - 1) (row'.toNat - 1) with hlt | hge
    · obtain ⟨hi, he⟩ := List.getElem?_eq_some_iff.1 hs
      obtain ⟨hi', he'⟩ := List.getElem?_eq_some_iff.1 hs'
      have := List.pairwise_iff_getElem.1 h.ascending _ _ hi hi' hlt
      rwa [he, he'] at this
    · rw [show row.toNat - 1 = row'.toNat - 1 by omega, hs', Option.some.injEq] at hs
      rw [hs]
      exact UInt32.le_refl _
  last := fun typeRow _ hr => by
    have hle := (h.starts_le _ (List.mem_of_getElem? (starts_getElem? hr))).2
    show _ ≤ (count image.methods).toNat + 1
    rwa [toNat_count (by omega)]

/-- an image whose rows of types fit into tokens has its types in order -/
theorem NestedInOrder.typesInOrder (h : image.NestedInOrder) (ht : image.types.size < 2 ^ 24) :
    image.reader.TypesInOrder where
  types := UInt32.le_iff_toNat_le.2 (by
    show (count image.types).toNat ≤ 0xFFFFFF
    rw [toNat_count (by omega)]
    omega)
  typeRow := fun row typeRow hr => row_le_of_rowOf (show image.types.size < 2 ^ 32 by omega) hr
  decodes := fun row h0 hle => rowOf_answers (show image.types.size < 2 ^ 32 by omega) h0 hle
  listed := fun outer row => by
    rw [h.encloser_iff]
    show row ∈ (image.nesting.toList.filter (·.2 == outer)).map (·.1) ↔ _
    simp
  listedInOrder := fun outer => by
    show ((image.nesting.toList.filter (·.2 == outer)).map (·.1)).Pairwise (· < ·)
    rw [List.pairwise_map]
    exact h.ascending.sublist List.filter_sublist
  outward := fun row outer he => by
    obtain ⟨h0, hlt, hle⟩ := h.range _ (h.encloser_iff.1 he)
    refine ⟨h0, hlt, UInt32.le_iff_toNat_le.2 ?_⟩
    show _ ≤ (count image.types).toNat
    rwa [toNat_count (by omega)]

/-- a grown image whose rows fit into tokens is a regular reader -/
theorem Grown.regular (h : image.Grown) (ht : image.types.size < 2 ^ 24) (hm : image.methods.size < 2 ^ 24) :
    image.reader.Regular :=
  have hr := h.nestedInOrder.typesInOrder ht
  { bounded := bounded_of_size ht hm
    ordered := h.ordered ht hm
    starts := fun row typeRow hr => (h.starts_le _ (List.mem_of_getElem? (starts_getElem? hr))).1
    methods := fun row h0 hle => rowOf_answers (show image.methods.size < 2 ^ 32 by omega) h0 hle
    methodsOf := rfl
    ownerOf := rfl
    listed := hr.listed
    listedInOrder := hr.listedInOrder
    outward := hr.outward }

/-- an image that is grown entry by entry is a regular reader, if its rows fit into tokens -/
theorem regular_addAll (file : String) (id : ModuleId) (entries : List Entry)
    (ht : ((empty file id).addAll entries).1.types.size < 2 ^ 24)
    (hm : ((empty file id).addAll entries).1.methods.size < 2 ^ 24) :
    ((empty file id).addAll entries).1.reader.Regular :=
  (grown_addAll (grown_empty file id) entries ht hm).regular ht hm

end FrameSymbols.Image
