/-
The runs of the types and the search for the owner of a method agree.

Where the runs start in row order, every type has one, no two of them meet (`methodRun_disjoint`), and a method of the
table lies in a run exactly when the search answers the type of that run. The search fails for the methods before the
first run and for rows that are no methods (`owner_fails_iff`). `owners_match_runs` puts this together.
-/
import FrameSymbols.Proofs.Image.Grown

namespace FrameSymbols

/-- a run has the rows from its start up to but not including its stop -/
instance : Membership UInt32 RowRange := ⟨fun run row => run.start ≤ row ∧ row < run.stop⟩

instance (row : UInt32) (run : RowRange) : Decidable (row ∈ run) :=
  inferInstanceAs (Decidable (run.start ≤ row ∧ row < run.stop))

namespace Tables

variable {t : Tables}

/-- a run starts at the list of its type, and that of an inner type stops at the list of the next one -/
theorem methodRun_bounds {row : UInt32} {run : RowRange} (h : t.methodRun row = .ok run) :
    (∃ typeRow, t.typeRow row = .ok typeRow ∧ run.start = typeRow.methodList) ∧
      (row < t.rowCount .typeDef → ∃ next, t.typeRow (row + 1) = .ok next ∧ run.stop = next.methodList) := by
  unfold methodRun at h
  cases hr : t.typeRow row with
  | error e => rw [hr] at h; cases h
  | ok typeRow =>
    simp only [hr, bind, Except.bind] at h
    by_cases hlt : row < t.rowCount .typeDef
    · rw [if_pos hlt] at h
      cases hn : t.typeRow (row + 1) with
      | error e => rw [hn] at h; cases h
      | ok next =>
        simp only [hn, Functor.map, Except.map] at h
        split at h
        · cases h
        · cases h
          exact ⟨⟨typeRow, rfl, rfl⟩, fun _ => ⟨next, rfl, rfl⟩⟩
    · rw [if_neg hlt] at h
      simp only [pure, Except.pure] at h
      split at h
      · cases h
      · cases h
        exact ⟨⟨typeRow, rfl, rfl⟩, fun hlt' => absurd hlt' hlt⟩

/-- the run of a type stops before those of the types behind it start -/
theorem methodRun_stop_le (h : t.Ordered) {row row' : UInt32} {run run' : RowRange} (hlt : row < row')
    (hle : row' ≤ t.rowCount .typeDef) (hr : t.methodRun row = .ok run) (hr' : t.methodRun row' = .ok run') :
    run.stop ≤ run'.start := by
  have hn := UInt32.lt_iff_toNat_lt.1 hlt
  have hbound : row.toNat + 1 < 2 ^ 32 := by
    have := row'.toNat_lt
    omega
  have hnext : (row + 1).toNat = row.toNat + 1 := toNat_add_one hbound
  obtain ⟨next, hnr, hstop⟩ := (methodRun_bounds hr).2 (UInt32.lt_of_lt_of_le hlt hle)
  obtain ⟨⟨typeRow, htr, hstart⟩, -⟩ := methodRun_bounds hr'
  rw [hstop, hstart]
  exact h.ascending (row + 1) row' next typeRow (add_one_ne_zero hbound) (UInt32.le_iff_toNat_le.2 (by omega)) hle hnr htr

/-- no row lies in the runs of two types -/
theorem methodRun_disjoint (h : t.Ordered) {row row' : UInt32} {run run' : RowRange} (hle : row ≤ t.rowCount .typeDef)
    (hle' : row' ≤ t.rowCount .typeDef) (hne : row ≠ row') (hr : t.methodRun row = .ok run)
    (hr' : t.methodRun row' = .ok run') (method : UInt32) : ¬(method ∈ run ∧ method ∈ run') := by
  rintro ⟨⟨hstart, hstop⟩, hstart', hstop'⟩
  rcases UInt32.lt_or_lt_of_ne hne with hlt | hlt
  · have hbefore := methodRun_stop_le h hlt hle' hr hr'
    exact absurd hstop (UInt32.not_lt.2 (UInt32.le_trans hbefore hstart'))
  · have hbefore := methodRun_stop_le h hlt hle hr' hr
    exact absurd hstop' (UInt32.not_lt.2 (UInt32.le_trans hbefore hstart))

theorem one_le_of_ne_zero {row : UInt32} (h : row ≠ 0) : 1 ≤ row := by
  have hn : row.toNat ≠ 0 := fun hz => h (UInt32.toNat_inj.1 hz)
  exact UInt32.le_iff_toNat_le.2 (Nat.one_le_iff_ne_zero.2 hn)

/-- the search fails for rows that are no methods and for methods before the first run -/
theorem owner_fails_iff (h : t.Ordered) (method : UInt32) :
    (∃ e, t.owner method = .error e) ↔ method = 0 ∨ t.rowCount .methodDef < method ∨ t.rowCount .typeDef = 0 ∨
      ∃ first, t.typeRow 1 = .ok first ∧ method < first.methodList := by
  by_cases hmissing : method = 0 ∨ t.rowCount .methodDef < method
  · have hfail : t.owner method = .error (.malformed (.methodMissing method (t.rowCount .methodDef))) := if_pos hmissing
    exact iff_of_true ⟨_, hfail⟩ (hmissing.imp_right .inl)
  · obtain ⟨hm0, hm⟩ := not_or.1 hmissing
    obtain ⟨last, howner, hlast, hbelow, habove⟩ := owner_split h hm0 (UInt32.not_lt.1 hm)
    simp only [hm0, hm, false_or, howner]
    by_cases hlast0 : last = 0
    · -- no type starts at or before the method, so the first one, if there is any, starts behind it
      refine iff_of_true ⟨_, if_pos hlast0⟩ (or_iff_not_imp_left.2 fun hcount => ?_)
      have hpos : 1 ≤ t.rowCount .typeDef := one_le_of_ne_zero hcount
      obtain ⟨first, hfirst⟩ := h.decodes 1 (by decide) hpos
      exact ⟨first, hfirst, habove 1 first (by rw [hlast0]; decide) hpos hfirst⟩
    · have hpos : 1 ≤ last := one_le_of_ne_zero hlast0
      refine iff_of_false ?_ ?_
      · rw [if_neg hlast0]
        rintro ⟨e, he⟩
        cases he
      · rintro (hcount | ⟨first, hfirst, hbefore⟩)
        · rw [hcount] at hlast
          exact hlast0 (UInt32.le_antisymm hlast UInt32.zero_le)
        · exact absurd (hbelow 1 first (by decide) hpos hfirst) (UInt32.not_le.2 hbefore)

/-- **Owners match runs.** In a reader that takes ownership from its rows, with the runs in row order and fewer methods
than rows can be counted: every type has a run; a method is owned by the type in whose run it lies, and by no other; no
row lies in two runs; and exactly the rows that are no methods, and the methods before the first run, have no owner. -/
theorem owners_match_runs (reader : Reader) (hruns : reader.methodsOf = reader.methodRun)
    (howners : reader.ownerOf = reader.owner) (h : reader.toTables.Ordered)
    (hcount : (reader.rowCount .methodDef).toNat < 2 ^ 32 - 1) :
    (∀ row, row ≠ 0 → row ≤ reader.rowCount .typeDef → ∃ run, reader.methodsOf row = .ok run ∧
      ∀ method, method ≠ 0 → method ≤ reader.rowCount .methodDef →
        (reader.ownerOf method = .ok row ↔ method ∈ run)) ∧
    (∀ row row' run run', row ≠ 0 → row ≤ reader.rowCount .typeDef → row' ≠ 0 → row' ≤ reader.rowCount .typeDef →
      row ≠ row' → reader.methodsOf row = .ok run → reader.methodsOf row' = .ok run' →
        ∀ method, ¬(method ∈ run ∧ method ∈ run')) ∧
    ∀ method, (∃ e, reader.ownerOf method = .error e) ↔ method = 0 ∨ reader.rowCount .methodDef < method ∨
      reader.rowCount .typeDef = 0 ∨ ∃ first, reader.typeRow 1 = .ok first ∧ method < first.methodList := by
  rw [hruns, howners]
  refine ⟨?_, ?_, owner_fails_iff h⟩
  · intro row h0 hle
    obtain ⟨run, hrun, -, -, -, hspec⟩ := methodRun_spec h (by omega) h0 hle
    exact ⟨run, hrun, fun method hm0 _ => (hspec method hm0).symm⟩
  · intro row row' run run' _ hle _ hle' hne hr hr'
    exact methodRun_disjoint h hle hle' hne hr hr'

/-- three types, the second of which has no methods and shares its start with the third -/
def sharedStart : Image :=
  ((Image.empty "Runs.dll" ⟨.replicate 16 7⟩).addAll
    [.type "" "A" 1, .method "F" 0, .method "G" 0, .type "" "B" 1, .type "" "C" 1, .method "H" 0]).1

theorem sharedStart_ordered : sharedStart.reader.toTables.Ordered :=
  (Image.grown_addAll (Image.grown_empty _ _) _ (by decide) (by decide)).ordered (by decide) (by decide)

/-- the start that two types share is a method of the later one only -/
theorem owners_match_runs_shared :
    sharedStart.reader.toTables.Ordered ∧ (sharedStart.reader.rowCount .methodDef).toNat < 2 ^ 32 - 1 ∧
      sharedStart.reader.ownerOf 3 = .ok 3 ∧
      ∃ run, sharedStart.reader.methodsOf 2 = .ok run ∧ (3 : UInt32) ∉ run := by
  have hcount : (sharedStart.reader.rowCount .methodDef).toNat < 2 ^ 32 - 1 := by decide
  obtain ⟨hmatch, -, -⟩ := owners_match_runs sharedStart.reader rfl rfl sharedStart_ordered hcount
  have hthird : sharedStart.reader.ownerOf 3 = .ok 3 := by
    obtain ⟨run, hrun, howner⟩ := hmatch 3 (by decide) (by decide)
    have hrun' : sharedStart.reader.methodsOf 3 = .ok ⟨3, 4⟩ := by decide
    rw [hrun, Except.ok.injEq] at hrun'
    exact (howner 3 (by decide) (by decide)).2 (by rw [hrun']; decide)
  obtain ⟨run, hrun, howner⟩ := hmatch 2 (by decide) (by decide)
  refine ⟨sharedStart_ordered, hcount, hthird, run, hrun, fun hmem => ?_⟩
  have hsecond := (howner 3 (by decide) (by decide)).2 hmem
  rw [hthird] at hsecond
  cases hsecond

end Tables

end FrameSymbols
