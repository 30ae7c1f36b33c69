/-
Tokens and their rows: a token is put together from its parts, and rows of at most 24 bits are told apart.
-/
import FrameSymbols.Token

namespace FrameSymbols.Token

theorem eq_ofParts {token : Token} {table : TableId} (h : token.selects table = true) :
    token = ofParts table token.row := by
  have hs : token.table.toNat = table.selector.toNat := by
    rw [selects, beq_iff_eq] at h
    rw [h]
  have hv := token.value.toNat_lt
  cases token with
  | mk value =>
    rw [Token.mk.injEq]
    apply UInt32.toNat_inj.1
    simp only [Token.table, rowLimit, UInt32.toNat_toUInt8, UInt32.toNat_div, UInt32.reduceToNat] at hs
    rw [show (ofParts table (row ⟨value⟩)).value.toNat = _ from toNat_value_ofParts _ _]
    simp only [row, rowLimit, UInt32.toNat_mod, UInt32.reduceToNat]
    simp only at hv
    omega

theorem tableId?_eq_some_iff {token : Token} {table : TableId} :
    token.tableId? = some table ↔ token.selects table = true := by
  rw [tableId?, selects, beq_iff_eq]
  constructor
  · intro h
    have hselector : table.selector = token.table := by simpa using List.find?_some h
    exact hselector.symm
  · intro h
    rw [h, TableId.ofSelector?_selector]

@[simp] theorem selects_ofParts (table : TableId) (row : UInt32) : (ofParts table row).selects table = true := by
  simp [selects]

/-- only the low 24 bits of a row go into a token -/
@[simp] theorem ofParts_row_ofParts (table other : TableId) (row : UInt32) :
    ofParts table (ofParts other row).row = ofParts table row := by
  rw [mk.injEq]
  apply UInt32.toNat_inj.1
  simp only [row_ofParts, toNat_value_ofParts, UInt32.toNat_mod, rowLimit, UInt32.reduceToNat]
  omega

theorem row_ofParts_of_le {table : TableId} {row : UInt32} (h : row ≤ 0xFFFFFF) : (ofParts table row).row = row := by
  rw [row_ofParts]
  apply UInt32.toNat_inj.1
  have hn : row.toNat ≤ 0xFFFFFF := UInt32.le_iff_toNat_le.1 h
  simp only [UInt32.toNat_mod, rowLimit, UInt32.reduceToNat]
  omega

theorem ofParts_inj {table : TableId} {row row' : UInt32} (h : row ≤ 0xFFFFFF) (h' : row' ≤ 0xFFFFFF)
    (he : ofParts table row = ofParts table row') : row = row' := by
  rw [← row_ofParts_of_le h, he, row_ofParts_of_le h']

end FrameSymbols.Token
