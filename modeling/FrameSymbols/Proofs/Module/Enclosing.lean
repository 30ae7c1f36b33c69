/-
The walk over enclosing types, and when decoding a type fails.

`walk` asks the tables alone: the rows it visits, and why it ends before a top-level type. Decoding a type fails
exactly when this walk does and none of the visited rows is remembered, and then it leaves no trace
(`runFrom_typeSymbol_fail`); otherwise it answers (`typeSymbol_answers`). What is remembered for a row has a path of
enclosing rows (`TypeAt.path`), so from there a walk can only run out of levels (`Meets.walk_fail`).
-/
import FrameSymbols.Proofs.Module.Coherence

namespace FrameSymbols

/-! ## Paths of enclosing rows -/

/-- `path` holds the rows that enclose `row`, innermost first, up to one that is in no other -/
def IsPath (reader : Reader) (row : UInt32) : List UInt32 → Prop
  | [] => reader.encloser row = none
  | encloser :: path => reader.encloser row = some encloser ∧ IsPath reader encloser path

theorem IsPath.of_encloser {reader : Reader} {row encloser : UInt32} {path : List UInt32} (h : IsPath reader row path)
    (he : reader.encloser row = some encloser) : ∃ rest, path = encloser :: rest ∧ IsPath reader encloser rest := by
  cases path with
  | nil => rw [IsPath, he] at h; cases h
  | cons next rest =>
    rw [IsPath, he, Option.some.injEq] at h
    obtain ⟨rfl, hp⟩ := h
    exact ⟨rest, rfl, hp⟩

theorem IsPath.unique {reader : Reader} {row : UInt32} {path path' : List UInt32} (h : IsPath reader row path)
    (h' : IsPath reader row path') : path = path' := by
  induction path generalizing row path' with
  | nil =>
    cases path' with
    | nil => rfl
    | cons encloser path' => rw [IsPath, h] at h'; cases h'.1
  | cons encloser path ih =>
    obtain ⟨rest, rfl, hp⟩ := h'.of_encloser h.1
    rw [ih h.2 hp]

/-- the types that enclose a type, innermost first -/
def TypeSymbol.enclosing : TypeSymbol → List TypeSymbol
  | ⟨_, _, _, _, _, containing, _, _⟩ =>
    match containing with
    | none => []
    | some outer => outer :: outer.enclosing

theorem TypeSymbol.enclosing_of_containing {t outer : TypeSymbol} (h : t.containing = some outer) :
    t.enclosing = outer :: outer.enclosing := by
  cases t
  cases h
  rfl

/-- the rows of types and methods fit into tokens, and rows that are not there are reported as errors -/
structure Reader.Bounded (reader : Reader) : Prop where
  types : reader.rowCount .typeDef ≤ 0xFFFFFF
  methods : reader.rowCount .methodDef ≤ 0xFFFFFF
  typeRow : ∀ row typeRow, reader.typeRow row = .ok typeRow → row ≠ 0 ∧ row ≤ reader.rowCount .typeDef
  methodRow : ∀ row methodRow, reader.methodRow row = .ok methodRow → row ≠ 0 ∧ row ≤ reader.rowCount .methodDef

/-- the rows of types fit into tokens, and those that are not there are reported as errors -/
structure Reader.BoundedTypes (reader : Reader) : Prop where
  types : reader.rowCount .typeDef ≤ 0xFFFFFF
  typeRow : ∀ row typeRow, reader.typeRow row = .ok typeRow → row ≠ 0 ∧ row ≤ reader.rowCount .typeDef

theorem Reader.Bounded.boundedTypes {reader : Reader} (h : reader.Bounded) : reader.BoundedTypes := ⟨h.types, h.typeRow⟩

/-- every row of a type can be decoded, and nesting leads from one of them to another -/
structure Reader.ClosedNesting (reader : Reader) : Prop extends reader.BoundedTypes where
  decodes : ∀ row, row ≠ 0 → row ≤ reader.rowCount .typeDef → ∃ typeRow, reader.typeRow row = .ok typeRow
  encloser : ∀ row outer, reader.encloser row = some outer → outer ≠ 0 ∧ outer ≤ reader.rowCount .typeDef

namespace LoadedModule

variable {m : LoadedModule} {memory : Memory}

/-- where the rows of types are bounded, a type is remembered under the token of its own row -/
theorem Coherent.typeAt (h : m.Coherent memory) (hb : m.reader.BoundedTypes) {row : UInt32} {t : TypeSymbol}
    (hrow : row ≤ m.reader.rowCount .typeDef) (ht : memory.type? (.ofParts .typeDef row) = some t) :
    m.TypeAt memory row t := by
  obtain ⟨row', he, hat⟩ := h.types _ t ht
  obtain ⟨typeRow, hr, -⟩ := hat.fields
  have hle := (hb.typeRow row' typeRow hr).2
  rw [Token.ofParts_inj (UInt32.le_trans hrow hb.types) (UInt32.le_trans hle hb.types) he]
  exact hat

/-- the types around a remembered type are remembered for the rows on the path of its row -/
theorem TypeAt.path (h : m.Coherent memory) (hb : m.reader.BoundedTypes) :
    ∀ (t : TypeSymbol) {row : UInt32}, m.TypeAt memory row t →
      ∃ path, IsPath m.reader row path ∧
        List.Forall₂ (fun row u => memory.type? (.ofParts .typeDef row) = some u) path t.enclosing
  | ⟨name, space, flags, origin, params, none, args, link⟩, row, hat => by
    refine ⟨[], ?_, .nil⟩
    cases he : m.reader.encloser row with
    | none => exact he
    | some encloser =>
      obtain ⟨-, -, outer, ho, -⟩ := hat.nested encloser he
      cases ho
  | ⟨name, space, flags, origin, params, some outer, args, link⟩, row, hat => by
    cases he : m.reader.encloser row with
    | none => cases hat.outermost he
    | some encloser =>
      obtain ⟨-, hle, outer', ho, hk⟩ := hat.nested encloser he
      cases ho
      obtain ⟨path, hp, hf⟩ := TypeAt.path h hb outer (h.typeAt hb hle hk)
      exact ⟨encloser :: path, ⟨he, hp⟩, .cons hk hf⟩

/-- the token of a row of the table resolves to the type of that row -/
theorem runFrom_resolveType_ofParts (hb : m.reader.BoundedTypes) {row : UInt32} (h0 : row ≠ 0)
    (hle : row ≤ m.reader.rowCount .typeDef) (memory : Memory) :
    (m.resolveType (.ofParts .typeDef row)).runFrom memory = (m.typeOfRow row).runFrom memory := by
  have hrow : (Token.ofParts .typeDef row).row = row := Token.row_ofParts_of_le (UInt32.le_trans hle hb.types)
  have hcheck : m.checkToken (.ofParts .typeDef row) .typeDef .type = .ok () :=
    checkToken_eq_ok_iff.2 ⟨Token.selects_ofParts _ _, by rw [hrow]; exact h0, by rw [hrow]; exact hle⟩
  rw [runFrom_resolveType, hcheck, hrow]

/-! ## The walk -/

/-- the rows visited on the way outwards from a row, `levels` of them at most, and why the way ends too early, if it
does -/
def walk (reader : Reader) : Nat → UInt32 → List UInt32 × Option Error
  | 0, _ => ([], some (.recursionLimit maxNesting))
  | levels + 1, row =>
    match reader.typeRow row with
    | .error e => ([row], some e)
    | .ok _ => match reader.encloser row with
      | none => ([row], none)
      | some encloser =>
        if encloser = 0 ∨ reader.rowCount .typeDef < encloser then
          ([row], some (.malformed (.encloserMissing row encloser)))
        else (row :: (walk reader levels encloser).1, (walk reader levels encloser).2)

/-- in a closed nesting a walk gets to the end of a path for which it has enough levels, and else runs out of levels -/
theorem walk_closed {reader : Reader} (h : reader.ClosedNesting) (levels : Nat) {row : UInt32} (h0 : row ≠ 0)
    (hle : row ≤ reader.rowCount .typeDef) :
    ((walk reader levels row).2 = none ∧ ∃ path, IsPath reader row path ∧ path.length < levels) ∨
      ((walk reader levels row).2 = some (.recursionLimit maxNesting) ∧
        ∀ path, IsPath reader row path → levels ≤ path.length) := by
  induction levels generalizing row with
  | zero => exact .inr ⟨rfl, fun path _ => Nat.zero_le _⟩
  | succ levels ih =>
    obtain ⟨typeRow, hr⟩ := h.decodes row h0 hle
    unfold walk
    simp only [hr]
    cases he : reader.encloser row with
    | none => exact .inl ⟨rfl, [], he, Nat.succ_pos levels⟩
    | some encloser =>
      obtain ⟨he0, hele⟩ := h.encloser row encloser he
      simp only
      rw [if_neg (not_or.2 ⟨he0, UInt32.not_lt.2 hele⟩)]
      rcases ih he0 hele with ⟨hw, path, hp, hlt⟩ | ⟨hw, hlong⟩
      · exact .inl ⟨hw, encloser :: path, ⟨he, hp⟩, Nat.succ_lt_succ hlt⟩
      · refine .inr ⟨hw, fun path hp => ?_⟩
        obtain ⟨rest, rfl, hrest⟩ := hp.of_encloser he
        exact Nat.succ_le_succ (hlong rest hrest)

/-- a walk stays in a closed nesting, and a path of a visited row is the end of one of the row where it started -/
theorem visited_of_walk {reader : Reader} (h : reader.ClosedNesting) {levels : Nat} {row visited : UInt32}
    (hle : row ≤ reader.rowCount .typeDef) (hv : visited ∈ (walk reader levels row).1) :
    visited ≤ reader.rowCount .typeDef ∧
      ∀ path, IsPath reader visited path → ∃ before, IsPath reader row (before ++ path) := by
  induction levels generalizing row with
  | zero => cases hv
  | succ levels ih =>
    have hhere : visited = row → visited ≤ reader.rowCount .typeDef ∧
        ∀ path, IsPath reader visited path → ∃ before, IsPath reader row (before ++ path) := by
      rintro rfl
      exact ⟨hle, fun path hp => ⟨[], hp⟩⟩
    unfold walk at hv
    split at hv
    · exact hhere (List.mem_singleton.1 hv)
    · split at hv
      · exact hhere (List.mem_singleton.1 hv)
      · next encloser he =>
        split at hv
        · exact hhere (List.mem_singleton.1 hv)
        · rcases List.mem_cons.1 hv with heq | hv
          · exact hhere heq
          · obtain ⟨hvisited, hpath⟩ := ih (h.encloser row encloser he).2 hv
            refine ⟨hvisited, fun path hp => ?_⟩
            obtain ⟨before, hbefore⟩ := hpath path hp
            exact ⟨encloser :: before, he, hbefore⟩

/-- a row that a walk visits is remembered -/
def Meets (m : LoadedModule) (memory : Memory) (levels : Nat) (row : UInt32) : Prop :=
  ∃ visited ∈ (walk m.reader levels row).1, memory.type? (.ofParts .typeDef visited) ≠ none

theorem not_meets_empty (m : LoadedModule) (levels : Nat) (row : UInt32) : ¬ m.Meets .empty levels row := by
  rintro ⟨visited, -, h⟩
  exact h (Memory.type?_empty _)

theorem meets_of_remembered {levels : Nat} {row : UInt32} (h : memory.type? (.ofParts .typeDef row) ≠ none) :
    m.Meets memory (levels + 1) row := by
  refine ⟨row, ?_, h⟩
  unfold walk
  split
  · simp
  · split
    · simp
    · split <;> simp

theorem meets_of_encloser {levels : Nat} {row encloser : UInt32} {typeRow : TypeRow}
    (hr : m.reader.typeRow row = .ok typeRow) (he : m.reader.encloser row = some encloser) (h0 : encloser ≠ 0)
    (hle : encloser ≤ m.reader.rowCount .typeDef) (h : m.Meets memory levels encloser) :
    m.Meets memory (levels + 1) row := by
  obtain ⟨visited, hv, hk⟩ := h
  refine ⟨visited, ?_, hk⟩
  unfold walk
  simp only [hr, he]
  rw [if_neg (not_or.2 ⟨h0, UInt32.not_lt.2 hle⟩)]
  exact List.mem_cons_of_mem _ hv

theorem runFrom_typeSymbol_fail {levels : Nat} {row : UInt32} {e : Error} (hw : (walk m.reader levels row).2 = some e)
    (hn : ¬ m.Meets memory levels row) : (m.typeSymbol levels row).runFrom memory = (.error e, memory) := by
  induction levels generalizing row with
  | zero => cases hw; rfl
  | succ levels ih =>
    have hk : memory.type? (.ofParts .typeDef row) = none := by
      by_contra hk
      exact hn (meets_of_remembered hk)
    rw [runFrom_typeSymbol_succ, hk]
    unfold Meets at hn
    unfold walk at hw hn
    cases hr : m.reader.typeRow row with
    | error e' => rw [hr] at hw; cases hw; rfl
    | ok typeRow =>
      simp only [hr] at hw hn ⊢
      cases he : m.reader.encloser row with
      | none => rw [he] at hw; cases hw
      | some encloser =>
        simp only [he] at hw hn ⊢
        split at hw
        · next hc => cases hw; rw [if_pos hc]
        · next hc =>
          rw [if_neg hc] at hn ⊢
          have hbehind : ¬ m.Meets memory levels encloser := by
            rintro ⟨v, hv, hm⟩
            exact hn ⟨v, List.mem_cons_of_mem _ hv, hm⟩
          rw [ih hw hbehind]

theorem typeSymbol_answers {levels : Nat} {row : UInt32}
    (h : (walk m.reader levels row).2 = none ∨ m.Meets memory levels row) :
    ∃ t, ((m.typeSymbol levels row).runFrom memory).1 = .ok t := by
  induction levels generalizing row with
  | zero => rcases h with h | ⟨v, hv, -⟩ <;> simp [walk] at *
  | succ levels ih =>
    rw [runFrom_typeSymbol_succ]
    cases hk : memory.type? (.ofParts .typeDef row) with
    | some known => exact ⟨known, rfl⟩
    | none =>
      unfold Meets at h
      unfold walk at h
      cases hr : m.reader.typeRow row with
      | error e => simp [hr, hk] at h
      | ok typeRow =>
        simp only [hr] at h ⊢
        cases he : m.reader.encloser row with
        | none =>
          simp only [runFrom_keepType, hk]
          exact ⟨_, rfl⟩
        | some encloser =>
          simp only [he] at h ⊢
          split at h
          · simp [hk] at h
          · next hc =>
            rw [if_neg hc]
            simp only [List.mem_cons, exists_eq_or_imp, hk, ne_eq, not_true_eq_false, false_or] at h
            obtain ⟨outer, ho⟩ := ih h
            rcases hrun : (m.typeSymbol levels encloser).runFrom memory with ⟨answer, memory'⟩
            rw [hrun] at ho
            subst ho
            simp only [runFrom_keepType]
            split <;> exact ⟨_, rfl⟩

/-- in a closed nesting a type with at most `maxNesting` types around it is decoded, whatever is remembered -/
theorem typeOfRow_of_path (hc : m.reader.ClosedNesting) {row : UInt32} (h0 : row ≠ 0)
    (hle : row ≤ m.reader.rowCount .typeDef) {path : List UInt32} (hp : IsPath m.reader row path)
    (hlength : path.length ≤ maxNesting) (memory : Memory) : ∃ t, ((m.typeOfRow row).runFrom memory).1 = .ok t := by
  rcases walk_closed hc (maxNesting + 1) h0 hle with ⟨hw, -⟩ | ⟨-, hlong⟩
  · exact typeSymbol_answers (.inl hw)
  · have := hlong path hp
    omega

/-- from a remembered row a walk can only run out of levels, on a path at least that long -/
theorem TypeAt.walk_fail (h : m.Coherent memory) (hb : m.reader.BoundedTypes) {levels : Nat} {row : UInt32}
    {t : TypeSymbol} {e : Error} (hat : m.TypeAt memory row t) (hw : (walk m.reader levels row).2 = some e) :
    e = .recursionLimit maxNesting ∧ ∀ path, IsPath m.reader row path → levels ≤ path.length := by
  induction levels generalizing row t with
  | zero => cases hw; exact ⟨rfl, fun path _ => Nat.zero_le _⟩
  | succ levels ih =>
    obtain ⟨typeRow, hr, -⟩ := hat.fields
    unfold walk at hw
    simp only [hr] at hw
    cases he : m.reader.encloser row with
    | none => rw [he] at hw; cases hw
    | some encloser =>
      obtain ⟨h0, hle, outer, -, hk⟩ := hat.nested encloser he
      simp only [he] at hw
      rw [if_neg (not_or.2 ⟨h0, UInt32.not_lt.2 hle⟩)] at hw
      obtain ⟨hlimit, hlong⟩ := ih (h.typeAt hb hle hk) hw
      refine ⟨hlimit, ?_⟩
      intro path hp
      obtain ⟨rest, rfl, hrest⟩ := hp.of_encloser he
      exact Nat.succ_le_succ (hlong rest hrest)

/-- a row without a path, such as one on a cycle, never leads to what is remembered -/
theorem not_meets_of_no_path (h : m.Coherent memory) (hc : m.reader.ClosedNesting) {levels : Nat} {row : UInt32}
    (hle : row ≤ m.reader.rowCount .typeDef) (hn : ∀ path, ¬ IsPath m.reader row path) :
    ¬ m.Meets memory levels row := by
  rintro ⟨visited, hv, hk⟩
  obtain ⟨t, ht⟩ := Option.ne_none_iff_exists'.1 hk
  obtain ⟨hvisited, hpath⟩ := visited_of_walk hc hle hv
  -- what is remembered has a path, which is the end of one from the row
  obtain ⟨path, hp, -⟩ := (h.typeAt hc.toBoundedTypes hvisited ht).path h hc.toBoundedTypes
  obtain ⟨before, hbefore⟩ := hpath path hp
  exact hn _ hbefore

/-- in a bounded reader only walks of too many levels meet what is remembered and fail -/
theorem Meets.walk_fail (h : m.Coherent memory) (hb : m.reader.Bounded) {levels : Nat} {row : UInt32} {e : Error}
    (hrow : row ≤ m.reader.rowCount .typeDef) (hm : m.Meets memory levels row)
    (hw : (walk m.reader levels row).2 = some e) :
    e = .recursionLimit maxNesting ∧ ∃ path, IsPath m.reader row path ∧ levels ≤ path.length := by
  induction levels generalizing row with
  | zero => obtain ⟨v, hv, -⟩ := hm; simp [walk] at hv
  | succ levels ih =>
    cases hk : memory.type? (.ofParts .typeDef row) with
    | some t =>
      have hat := h.typeAt hb.boundedTypes hrow hk
      obtain ⟨path, hp, -⟩ := hat.path h hb.boundedTypes
      obtain ⟨hlimit, hlong⟩ := hat.walk_fail h hb.boundedTypes hw
      exact ⟨hlimit, path, hp, hlong path hp⟩
    | none =>
      unfold Meets at hm
      unfold walk at hw hm
      cases hr : m.reader.typeRow row with
      | error e' => simp [hr, hk] at hm
      | ok typeRow =>
        simp only [hr] at hw hm
        cases he : m.reader.encloser row with
        | none => simp [he] at hw
        | some encloser =>
          simp only [he] at hw hm
          split at hw
          · next hc => simp [hc, hk] at hm
          · next hc =>
            simp only [if_neg hc, List.mem_cons, exists_eq_or_imp, hk, ne_eq, not_true_eq_false, false_or] at hm
            obtain ⟨hlimit, path, hp, hlong⟩ := ih (UInt32.not_lt.1 (not_or.1 hc).2) hm hw
            exact ⟨hlimit, encloser :: path, ⟨he, hp⟩, Nat.succ_le_succ hlong⟩

end LoadedModule

end FrameSymbols
