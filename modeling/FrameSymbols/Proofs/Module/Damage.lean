/-
Which errors a damaged module reports.

Reading the tables fails on damage, if that is all that the reader reports; an image does so (`Image.reportsDamage`).
Decoding a type then fails on damage as well, or because types are nested too deep (`typeOfRow_damage`). So none of
these errors is taken for an answer about a token or a name.
-/
import FrameSymbols.Proofs.Image.Rows

namespace FrameSymbols

/-- an error about the tables, and not about what was asked -/
def Error.IsDamage (e : Error) : Prop := (∃ damage, e = .malformed damage) ∨ ∃ levels, e = .recursionLimit levels

/-- reading types, methods and owners fails on damage only -/
structure Reader.ReportsDamage (reader : Reader) : Prop where
  typeRow : ∀ row e, reader.typeRow row = .error e → ∃ damage, e = .malformed damage
  methodRow : ∀ row e, reader.methodRow row = .error e → ∃ damage, e = .malformed damage
  ownerOf : ∀ row e, reader.ownerOf row = .error e → ∃ damage, e = .malformed damage

/-! ## Readers that report damage only -/

/-- the search for an owner fails only on a row of a type -/
theorem Tables.startedBy_error {t : Tables} {method low high : UInt32} {e : Error}
    (h : t.startedBy method low high = .error e) : ∃ row, t.typeRow row = .error e := by
  fun_induction startedBy t method low high with
  | case1 low high hlt ihHigh ihLow =>
    cases hr : t.typeRow (midpoint low high + 1) with
    | error e' =>
      rw [hr] at h
      cases h
      exact ⟨_, hr⟩
    | ok row =>
      rw [hr] at h
      change (if row.methodList ≤ method then _ else _) = _ at h
      split at h
      · exact ihHigh h
      · exact ihLow h
  | case2 low high hlt => cases h

/-- a reader that takes ownership from its rows reports damage only, if its rows do -/
theorem Tables.reader_reportsDamage {t : Tables}
    (htype : ∀ row e, t.typeRow row = .error e → ∃ damage, e = .malformed damage)
    (hmethod : ∀ row e, t.methodRow row = .error e → ∃ damage, e = .malformed damage) : t.reader.ReportsDamage where
  typeRow := htype
  methodRow := hmethod
  ownerOf := fun row e h => by
    change t.owner row = .error e at h
    unfold owner at h
    dsimp only at h
    split at h
    · cases h
      exact ⟨_, rfl⟩
    · cases hs : t.startedBy row 0 (t.rowCount .typeDef) with
      | error e' =>
        rw [hs] at h
        cases h
        obtain ⟨row', hr⟩ := startedBy_error hs
        exact htype row' _ hr
      | ok last =>
        rw [hs] at h
        change (if last = 0 then _ else _) = _ at h
        split at h <;> cases h
        exact ⟨_, rfl⟩

theorem Image.rowOf_damage {α : Type} {table : TableId} {rows : Array α} {row : UInt32} {e : Error}
    (h : rowOf table rows row = .error e) : ∃ damage, e = .malformed damage := by
  unfold rowOf at h
  split at h
  · cases h
    exact ⟨_, rfl⟩
  · split at h <;> cases h
    exact ⟨_, rfl⟩

/-- an image reports damage only -/
theorem Image.reportsDamage (image : Image) : image.reader.ReportsDamage :=
  Tables.reader_reportsDamage (fun _ _ => rowOf_damage) (fun _ _ => rowOf_damage)

namespace LoadedModule

variable {m : LoadedModule} {memory : Memory}

/-! ## Decoding a type -/

theorem walk_damage {reader : Reader} (hr : reader.ReportsDamage) {levels : Nat} {row : UInt32} {e : Error}
    (h : (walk reader levels row).2 = some e) : e.IsDamage := by
  induction levels generalizing row with
  | zero =>
    cases h
    exact .inr ⟨maxNesting, rfl⟩
  | succ levels ih =>
    unfold walk at h
    split at h
    · next e' he =>
      cases h
      exact .inl (hr.typeRow row e he)
    · split at h
      · cases h
      · split at h
        · cases h
          exact .inl ⟨_, rfl⟩
        · exact ih h

theorem typeOfRow_damage (hr : m.reader.ReportsDamage) {row : UInt32} {e : Error}
    (h : ((m.typeOfRow row).runFrom memory).1 = .error e) : e.IsDamage := by
  by_cases ha : (walk m.reader (maxNesting + 1) row).2 = none ∨ m.Meets memory (maxNesting + 1) row
  · obtain ⟨t, ht⟩ := typeSymbol_answers ha
    rw [typeOfRow, ht] at h
    cases h
  · obtain ⟨hw, hn⟩ := not_or.1 ha
    obtain ⟨e', he⟩ := Option.ne_none_iff_exists'.1 hw
    rw [typeOfRow, runFrom_typeSymbol_fail he hn] at h
    cases h
    exact walk_damage hr he

end LoadedModule

end FrameSymbols
