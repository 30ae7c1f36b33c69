/-
Which type owns a method.

The search for the owner stays inside the table, whatever the rows are (`owner_range`). Where the runs of the types
start in row order (`Ordered`), it finds the last type that starts at or before the method (`startedBy_split`), and
that is the one whose run has the method (`methodRun_spec`).
-/
import FrameSymbols.Tables
import Mathlib.Algebra.Group.Nat.Defs

namespace FrameSymbols.Tables

theorem toNat_add_one {row : UInt32} (h : row.toNat + 1 < 2 ^ 32) : (row + 1).toNat = row.toNat + 1 := by
  calc (row + 1).toNat = (row.toNat + 1) % 2 ^ 32 := UInt32.toNat_add row 1
    _ = row.toNat + 1 := Nat.mod_eq_of_lt h

theorem add_one_ne_zero {row : UInt32} (h : row.toNat + 1 < 2 ^ 32) : row + 1 ≠ 0 := by
  intro hz
  have hnext := toNat_add_one h
  rw [hz] at hnext
  simp at hnext

theorem startedBy_range {t : Tables} {method low high last : UInt32} (h : t.startedBy method low high = .ok last)
    (hlh : low ≤ high) : low ≤ last ∧ last ≤ high := by
  fun_induction startedBy t method low high with
  | case1 low high hlt ihHigh ihLow =>
    have hn := UInt32.lt_iff_toNat_lt.1 hlt
    cases hr : t.typeRow (midpoint low high + 1) with
    | error e => rw [hr] at h; cases h
    | ok row =>
      rw [hr] at h
      change (if row.methodList ≤ method then _ else _) = _ at h
      split at h
      · have hmid := toNat_midpoint_succ hlt
        obtain ⟨h1, h2⟩ := ihHigh h (UInt32.le_iff_toNat_le.2 (by omega))
        refine ⟨UInt32.le_trans (UInt32.le_iff_toNat_le.2 (by omega)) h1, h2⟩
      · have hmid := toNat_midpoint hlt
        obtain ⟨h1, h2⟩ := ihLow h (UInt32.le_iff_toNat_le.2 (by omega))
        exact ⟨h1, UInt32.le_trans h2 (UInt32.le_iff_toNat_le.2 (by omega))⟩
  | case2 low high hlt => cases h; exact ⟨UInt32.le_refl _, hlh⟩

/-- an owner is a row of the table of types -/
theorem owner_range {t : Tables} {method row : UInt32} (h : t.owner method = .ok row) :
    row ≠ 0 ∧ row ≤ t.rowCount .typeDef := by
  unfold owner at h
  dsimp only at h
  split at h
  · cases h
  · cases hs : t.startedBy method 0 (t.rowCount .typeDef) with
    | error e => rw [hs] at h; cases h
    | ok last =>
      rw [hs] at h
      change (if last = 0 then _ else _) = _ at h
      split at h
      · cases h
      · next h0 => cases h; exact ⟨h0, (startedBy_range hs UInt32.zero_le).2⟩

/-! ## Runs in row order -/

/-- every type can be decoded, and the runs start in row order, the last one at a method or right behind them -/
structure Ordered (t : Tables) : Prop where
  decodes : ∀ row, row ≠ 0 → row ≤ t.rowCount .typeDef → ∃ typeRow, t.typeRow row = .ok typeRow
  ascending : ∀ row row' typeRow typeRow', row ≠ 0 → row ≤ row' → row' ≤ t.rowCount .typeDef →
    t.typeRow row = .ok typeRow → t.typeRow row' = .ok typeRow' → typeRow.methodList ≤ typeRow'.methodList
  last : ∀ typeRow, t.rowCount .typeDef ≠ 0 → t.typeRow (t.rowCount .typeDef) = .ok typeRow →
    typeRow.methodList.toNat ≤ (t.rowCount .methodDef).toNat + 1

variable {t : Tables}

/-- no run starts later than right behind the methods -/
theorem Ordered.starts (h : t.Ordered) {row : UInt32} {typeRow : TypeRow} (h0 : row ≠ 0)
    (hle : row ≤ t.rowCount .typeDef) (hr : t.typeRow row = .ok typeRow) :
    typeRow.methodList.toNat ≤ (t.rowCount .methodDef).toNat + 1 := by
  have hcount : t.rowCount .typeDef ≠ 0 := by
    intro hz
    rw [hz] at hle
    exact h0 (UInt32.le_antisymm hle UInt32.zero_le)
  obtain ⟨last, hlast⟩ := h.decodes _ hcount (UInt32.le_refl _)
  have hsorted := h.ascending row _ typeRow last h0 hle (UInt32.le_refl _) hr hlast
  exact Nat.le_trans (UInt32.le_iff_toNat_le.1 hsorted) (h.last last hcount hlast)

/-- the search parts the types into those that start at or before a method and those that start behind it -/
theorem startedBy_split (h : t.Ordered) {method low high : UInt32} (hlh : low ≤ high)
    (hhigh : high ≤ t.rowCount .typeDef)
    (hbelow : ∀ row typeRow, row ≠ 0 → row ≤ low → t.typeRow row = .ok typeRow → typeRow.methodList ≤ method)
    (habove : ∀ row typeRow, high < row → row ≤ t.rowCount .typeDef → t.typeRow row = .ok typeRow →
      method < typeRow.methodList) :
    ∃ last, t.startedBy method low high = .ok last ∧ last ≤ t.rowCount .typeDef ∧
      (∀ row typeRow, row ≠ 0 → row ≤ last → t.typeRow row = .ok typeRow → typeRow.methodList ≤ method) ∧
      ∀ row typeRow, last < row → row ≤ t.rowCount .typeDef → t.typeRow row = .ok typeRow →
        method < typeRow.methodList := by
  fun_induction startedBy t method low high with
  | case1 low high hlt ihHigh ihLow =>
    have hn := UInt32.lt_iff_toNat_lt.1 hlt
    have hmid := toNat_midpoint hlt
    have hmid' := toNat_midpoint_succ hlt
    have hmid0 : midpoint low high + 1 ≠ 0 := by
      intro h0
      rw [h0] at hmid'
      exact absurd hmid' (by simp)
    have hmidHigh : midpoint low high + 1 ≤ high := UInt32.le_iff_toNat_le.2 (by omega)
    have hlowMid : low ≤ midpoint low high := UInt32.le_iff_toNat_le.2 (by omega)
    have hmidHigh' : midpoint low high ≤ high := UInt32.le_iff_toNat_le.2 (by omega)
    obtain ⟨middle, hr⟩ := h.decodes _ hmid0 (UInt32.le_trans hmidHigh hhigh)
    rw [hr]
    change ∃ last, (if middle.methodList ≤ method then _ else _) = _ ∧ _
    -- the runs are in order, so what holds of the middle type holds of all before it or of all behind it
    split
    · next hle =>
      refine ihHigh hmidHigh hhigh (fun row typeRow h0 hrow hrr => ?_) habove
      exact UInt32.le_trans (h.ascending row _ typeRow middle h0 hrow (UInt32.le_trans hmidHigh hhigh) hrr hr) hle
    · next hnle =>
      refine ihLow hlowMid (UInt32.le_trans hmidHigh' hhigh) hbelow ?_
      intro row typeRow hrow hrow' hrr
      have hrow1 : midpoint low high + 1 ≤ row := by
        have := UInt32.lt_iff_toNat_lt.1 hrow
        exact UInt32.le_iff_toNat_le.2 (by omega)
      exact UInt32.lt_of_lt_of_le (UInt32.not_le.1 hnle) (h.ascending _ row middle typeRow hmid0 hrow1 hrow' hr hrr)
  | case2 low high hlt =>
    have heq : low = high := UInt32.le_antisymm hlh (UInt32.not_lt.1 hlt)
    subst heq
    exact ⟨low, rfl, hhigh, hbelow, habove⟩

/-- only methods of the table have an owner -/
theorem method_range_of_owner {method row : UInt32} (h : t.owner method = .ok row) :
    method ≠ 0 ∧ method ≤ t.rowCount .methodDef := by
  unfold owner at h
  dsimp only at h
  split at h
  · cases h
  · next hm => exact ⟨(not_or.1 hm).1, UInt32.not_lt.1 (not_or.1 hm).2⟩

/-- the owner of a method of the table is the last of the types that start at or before it, if there are any -/
theorem owner_split (h : t.Ordered) {method : UInt32} (hm0 : method ≠ 0) (hm : method ≤ t.rowCount .methodDef) :
    ∃ last, t.owner method = (if last = 0 then .error (.malformed (.methodUnowned method)) else .ok last) ∧
      last ≤ t.rowCount .typeDef ∧
      (∀ row typeRow, row ≠ 0 → row ≤ last → t.typeRow row = .ok typeRow → typeRow.methodList ≤ method) ∧
      ∀ row typeRow, last < row → row ≤ t.rowCount .typeDef → t.typeRow row = .ok typeRow →
        method < typeRow.methodList := by
  obtain ⟨last, hs, hlast, hbelow, habove⟩ := startedBy_split h (UInt32.zero_le) (UInt32.le_refl _)
    (fun row typeRow h0 hrow _ => absurd (UInt32.le_antisymm hrow UInt32.zero_le) h0)
    (fun row typeRow hrow hrow' _ => absurd hrow' (UInt32.not_le.2 hrow))
  refine ⟨last, ?_, hlast, hbelow, habove⟩
  unfold owner
  dsimp only
  rw [if_neg (not_or.2 ⟨hm0, UInt32.not_lt.2 hm⟩), hs]
  rfl

/-- the owner is the last type that starts at or before the method -/
theorem owner_eq_iff (h : t.Ordered) {method row : UInt32} (hm0 : method ≠ 0) (hm : method ≤ t.rowCount .methodDef)
    {typeRow : TypeRow} (h0 : row ≠ 0) (hle : row ≤ t.rowCount .typeDef) (hr : t.typeRow row = .ok typeRow) :
    t.owner method = .ok row ↔ typeRow.methodList ≤ method ∧
      ∀ row' typeRow', row < row' → row' ≤ t.rowCount .typeDef → t.typeRow row' = .ok typeRow' →
        method < typeRow'.methodList := by
  obtain ⟨last, howner, hlast, hbelow, habove⟩ := owner_split h hm0 hm
  rw [howner]
  constructor
  · intro hok
    split at hok
    · cases hok
    · cases hok
      exact ⟨hbelow _ typeRow h0 (UInt32.le_refl _) hr, habove⟩
  · rintro ⟨hstart, hlater⟩
    have hrow : row ≤ last := by
      rw [← UInt32.not_lt]
      intro hlt
      exact absurd hstart (UInt32.not_le.2 (habove row typeRow hlt hle hr))
    have hlast0 : last ≠ 0 := by
      rintro rfl
      exact h0 (UInt32.le_antisymm hrow UInt32.zero_le)
    have heq : last = row := by
      refine UInt32.le_antisymm ?_ hrow
      rw [← UInt32.not_lt]
      intro hlt
      obtain ⟨lastRow, hlr⟩ := h.decodes last hlast0 hlast
      have hbehind : method < lastRow.methodList := hlater last lastRow hlt hlast hlr
      exact absurd (hbelow last lastRow hlast0 (UInt32.le_refl _) hlr) (UInt32.not_le.2 hbehind)
    rw [if_neg hlast0, heq]

/-- a run that ends before the methods of all later types has the methods that its type owns -/
theorem mem_run_iff (h : t.Ordered) {row stop : UInt32} {typeRow : TypeRow} (h0 : row ≠ 0)
    (hle : row ≤ t.rowCount .typeDef) (hr : t.typeRow row = .ok typeRow)
    (hstop : stop.toNat ≤ (t.rowCount .methodDef).toNat + 1)
    (hlater : ∀ method, method ≤ t.rowCount .methodDef → (method < stop ↔ ∀ row' typeRow', row < row' →
      row' ≤ t.rowCount .typeDef → t.typeRow row' = .ok typeRow' → method < typeRow'.methodList))
    {method : UInt32} (hm0 : method ≠ 0) :
    typeRow.methodList ≤ method ∧ method < stop ↔ t.owner method = .ok row := by
  constructor
  · rintro ⟨hstart, hlt⟩
    have hm : method ≤ t.rowCount .methodDef := by
      have := UInt32.lt_iff_toNat_lt.1 hlt
      exact UInt32.le_iff_toNat_le.2 (by omega)
    exact (owner_eq_iff h hm0 hm h0 hle hr).2 ⟨hstart, (hlater method hm).1 hlt⟩
  · intro howner
    have hm := (method_range_of_owner howner).2
    obtain ⟨hstart, hall⟩ := (owner_eq_iff h hm0 hm h0 hle hr).1 howner
    exact ⟨hstart, (hlater method hm).2 hall⟩

/-- the run of a type has the methods that it owns -/
theorem methodRun_spec (h : t.Ordered) (hcount : (t.rowCount .methodDef).toNat + 1 < 2 ^ 32) {row : UInt32}
    (h0 : row ≠ 0) (hle : row ≤ t.rowCount .typeDef) :
    ∃ run, t.methodRun row = .ok run ∧ (∃ typeRow, t.typeRow row = .ok typeRow ∧ run.start = typeRow.methodList) ∧
      run.start.toNat ≤ run.stop.toNat ∧ run.stop.toNat ≤ (t.rowCount .methodDef).toNat + 1 ∧
      ∀ method, method ≠ 0 → (run.start ≤ method ∧ method < run.stop ↔ t.owner method = .ok row) := by
  obtain ⟨typeRow, hr⟩ := h.decodes row h0 hle
  have hstart := h.starts h0 hle hr
  unfold methodRun
  rw [hr]
  by_cases hlt : row < t.rowCount .typeDef
  · have hn := UInt32.lt_iff_toNat_lt.1 hlt
    have hbound : row.toNat + 1 < 2 ^ 32 := by
      have := (t.rowCount .typeDef).toNat_lt
      omega
    have hnext : (row + 1).toNat = row.toNat + 1 := toNat_add_one hbound
    have hnextLe : row + 1 ≤ t.rowCount .typeDef := UInt32.le_iff_toNat_le.2 (by omega)
    have hnext0 : row + 1 ≠ 0 := add_one_ne_zero hbound
    obtain ⟨next, hnr⟩ := h.decodes (row + 1) hnext0 hnextLe
    have hsorted := h.ascending row (row + 1) typeRow next h0 (UInt32.le_iff_toNat_le.2 (by omega)) hnextLe hr hnr
    have hstop := h.starts hnext0 hnextLe hnr
    refine ⟨⟨typeRow.methodList, next.methodList⟩, ?_, ⟨typeRow, rfl, rfl⟩, UInt32.le_iff_toNat_le.1 hsorted, hstop, ?_⟩
    · simp only [bind, Except.bind, if_pos hlt, hnr, Functor.map, Except.map]
      rw [if_neg (UInt32.not_lt.2 hsorted)]
    · intro method hm0
      apply mem_run_iff h h0 hle hr hstop _ hm0
      intro method hm
      constructor
      · intro hlast row' typeRow' hrow hrow' hr'
        have hrow1 : row + 1 ≤ row' := by
          have := UInt32.lt_iff_toNat_lt.1 hrow
          exact UInt32.le_iff_toNat_le.2 (by omega)
        exact UInt32.lt_of_lt_of_le hlast (h.ascending _ row' next typeRow' hnext0 hrow1 hrow' hnr hr')
      · intro hall
        exact hall (row + 1) next (UInt32.lt_iff_toNat_lt.2 (by omega)) hnextLe hnr
  · have hstop : (t.rowCount .methodDef + 1).toNat = (t.rowCount .methodDef).toNat + 1 := toNat_add_one hcount
    have hsorted : typeRow.methodList ≤ t.rowCount .methodDef + 1 := UInt32.le_iff_toNat_le.2 (by omega)
    refine ⟨⟨typeRow.methodList, t.rowCount .methodDef + 1⟩, ?_, ⟨typeRow, rfl, rfl⟩, UInt32.le_iff_toNat_le.1 hsorted,
      Nat.le_of_eq hstop, ?_⟩
    · simp only [bind, Except.bind, if_neg hlt, pure, Except.pure]
      rw [if_neg (UInt32.not_lt.2 hsorted)]
    · intro method hm0
      apply mem_run_iff h h0 hle hr (Nat.le_of_eq hstop) _ hm0
      intro method hm
      constructor
      · intro _ row' typeRow' hrow hrow' _
        exact absurd (UInt32.lt_of_lt_of_le hrow hrow') hlt
      · intro _
        have := UInt32.le_iff_toNat_le.1 hm
        exact UInt32.lt_iff_toNat_lt.2 (by omega)

end FrameSymbols.Tables
