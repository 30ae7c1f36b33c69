/-
How deep types may be nested.

A type with a path of at most 64 enclosing types resolves after any history, and one with a longer path fails on a fresh
view. What is remembered has a path, so a type on a cycle, or on the way into one, is never remembered, and no history
makes it resolve (`nesting_limit_exact`).
-/
import FrameSymbols.Proofs.Image.Rows

namespace FrameSymbols

namespace LoadedModule

variable {m : LoadedModule} {memory : Memory}

/-- a type that is not on a way to what is remembered fails if its path is too long, or if it has none -/
theorem typeOfRow_limit (hc : m.reader.ClosedNesting) {row : UInt32} (h0 : row ≠ 0)
    (hle : row ≤ m.reader.rowCount .typeDef) (hlong : ∀ path, IsPath m.reader row path → maxNesting < path.length)
    (hn : ¬ m.Meets memory (maxNesting + 1) row) :
    ((m.typeOfRow row).runFrom memory).1 = .error (.recursionLimit maxNesting) := by
  rcases walk_closed hc (maxNesting + 1) h0 hle with ⟨-, path, hp, hlt⟩ | ⟨hw, -⟩
  · have := hlong path hp
    omega
  · rw [typeOfRow, runFrom_typeSymbol_fail hw hn]

/-- **The nesting limit is exact.** Every type can be decoded, and nesting leads from types to types. A type always
resolves or fails with the recursion limit. With at most 64 enclosing types it resolves after any history; with more it
fails on a fresh view; and if the way outwards never ends, it fails after every history. -/
theorem nesting_limit_exact (m : LoadedModule) (hc : m.reader.ClosedNesting) (asks : List Ask) (row : UInt32)
    (h0 : row ≠ 0) (hle : row ≤ m.reader.rowCount .typeDef) :
    ((∃ t, ((m.resolveType (.ofParts .typeDef row)).runFrom (m.after asks)).1 = .ok t) ∨
      ((m.resolveType (.ofParts .typeDef row)).runFrom (m.after asks)).1 = .error (.recursionLimit 64)) ∧
    (∀ path, IsPath m.reader row path → path.length ≤ 64 →
      ∃ t, ((m.resolveType (.ofParts .typeDef row)).runFrom (m.after asks)).1 = .ok t) ∧
    (∀ path, IsPath m.reader row path → 64 < path.length →
      ((m.resolveType (.ofParts .typeDef row)).runFrom .empty).1 = .error (.recursionLimit 64)) ∧
    ((∀ path, ¬ IsPath m.reader row path) →
      ((m.resolveType (.ofParts .typeDef row)).runFrom (m.after asks)).1 = .error (.recursionLimit 64)) := by
  have h := m.after_coherent asks
  simp only [runFrom_resolveType_ofParts hc.toBoundedTypes h0 hle]
  refine ⟨?_, ?_, ?_, ?_⟩
  · rcases walk_closed hc (maxNesting + 1) h0 hle with ⟨hw, -⟩ | ⟨hw, -⟩
    · exact .inl (typeSymbol_answers (.inl hw))
    · by_cases hmeets : m.Meets (m.after asks) (maxNesting + 1) row
      · exact .inl (typeSymbol_answers (.inr hmeets))
      · exact .inr (congrArg Prod.fst (runFrom_typeSymbol_fail hw hmeets))
  · intro path hp hlength
    exact typeOfRow_of_path hc h0 hle hp hlength _
  · intro path hp hlong
    exact typeOfRow_limit hc h0 hle (fun path' hp' => by rw [hp'.unique hp]; exact hlong) (m.not_meets_empty _ _)
  · intro hn
    exact typeOfRow_limit hc h0 hle (fun path hp => absurd hp (hn path)) (not_meets_of_no_path h hc hle hn)

end LoadedModule

/-- three types, of which the second and the third enclose one another -/
def Image.knot : Image :=
  { Image.empty "Knot.dll" ⟨.replicate 16 7⟩ with
    types := #[⟨1, "T", "", 1, []⟩, ⟨2, "U", "", 1, []⟩, ⟨2, "V", "", 1, []⟩]
    nesting := #[(2, 3), (3, 2)] }

theorem Image.knot_closed : knot.reader.ClosedNesting where
  types := by decide
  typeRow := fun row typeRow hr => row_le_of_rowOf (by decide) hr
  decodes := fun row h0 hle => rowOf_answers (by decide) h0 hle
  encloser := fun row outer he => by
    have hall : ∀ entry ∈ knot.nesting.toList, entry.2 ≠ 0 ∧ entry.2 ≤ knot.reader.rowCount .typeDef :=
      List.forall_mem_cons.2 ⟨by decide, List.forall_mem_singleton.2 (by decide)⟩
    exact hall (row, outer) (mem_nesting_of_encloser he)

/-- the way outwards from the second type goes round in circles -/
theorem Image.knot_no_path (path : List UInt32) :
    ¬ IsPath knot.reader 2 path ∧ ¬ IsPath knot.reader 3 path := by
  induction path with
  | nil => constructor <;> exact nofun
  | cons encloser path ih =>
    refine ⟨?_, ?_⟩
    · rintro ⟨he, hp⟩
      cases he
      exact ih.2 hp
    · rintro ⟨he, hp⟩
      cases he
      exact ih.1 hp

namespace LoadedModule

/-- after asking for the whole knot, the type outside resolves and those inside do not -/
theorem nesting_limit_exact_knot :
    Image.knot.reader.ClosedNesting ∧ (∀ path, ¬ IsPath Image.knot.reader 2 path) ∧
      ((Image.knot.view.resolveType (.ofParts .typeDef 2)).runFrom
        (Image.knot.view.after [.type (.ofParts .typeDef 1), .type (.ofParts .typeDef 3)])).1 =
          .error (.recursionLimit 64) ∧
      ∃ t, ((Image.knot.view.resolveType (.ofParts .typeDef 1)).runFrom
        (Image.knot.view.after [.type (.ofParts .typeDef 3)])).1 = .ok t := by
  have hn : ∀ path, ¬ IsPath Image.knot.reader 2 path := fun path => (Image.knot_no_path path).1
  refine ⟨Image.knot_closed, hn, ?_, ?_⟩
  · exact (nesting_limit_exact Image.knot.view Image.knot_closed _ 2 (by decide) (by decide)).2.2.2 hn
  · exact (nesting_limit_exact Image.knot.view Image.knot_closed _ 1 (by decide) (by decide)).2.1 [] rfl (by decide)

end LoadedModule

end FrameSymbols
