/-
Source names in generated names.

The name of a helper type shows a hyphen for each dot of its source name, and a dot is read for each hyphen. So a source
name comes back if and only if it has no hyphens of its own (`dotted_hyphenated_iff`). An arity marker behind the name
changes nothing: what is stripped stands behind the kind (`ConsistsOf.strip`). `source_names_survive` puts this
together.
-/
import FrameSymbols.Proofs.GeneratedName.Grammar

namespace FrameSymbols

namespace GeneratedName

/-! ## Hyphens for dots -/

/-- a source name as the name of a helper type shows it -/
def hyphenated (source : List Char) : List Char := source.map fun c => if c = '.' then '-' else c

/-- a source name as it is read from the name of a helper type -/
def dotted (source : List Char) : List Char := source.map fun c => if c = '-' then '.' else c

theorem count_hyphenated {b : Char} (hd : b ≠ '.') (hh : b ≠ '-') (cs : List Char) :
    (hyphenated cs).count b = cs.count b := by
  induction cs with
  | nil => rfl
  | cons c cs ih =>
    unfold hyphenated at ih ⊢
    rw [List.map_cons, List.count_cons, List.count_cons, ih]
    by_cases hc : c = '.'
    · simp [hc, hd.symm, hh.symm]
    · simp [hc]

theorem balancedFrom_hyphenated {depth : Nat} {cs : List Char} (h : BalancedFrom depth cs) :
    BalancedFrom depth (hyphenated cs) := by
  have hopen := count_hyphenated (show '<' ≠ '.' by decide) (by decide)
  have hclose := count_hyphenated (show '>' ≠ '.' by decide) (by decide)
  refine ⟨?_, by rw [hopen, hclose]; exact h.2⟩
  intro before hb
  have hpre := List.prefix_iff_eq_take.1 ((List.mem_inits _ _).1 hb)
  rw [hyphenated, ← List.map_take] at hpre
  change before = hyphenated _ at hpre
  rw [hpre, hopen, hclose]
  exact h.1 _ ((List.mem_inits _ _).2 (List.take_prefix _ _))

theorem hyphen_notMem_dotted (source : List Char) : '-' ∉ dotted source := by
  intro h
  obtain ⟨c, -, hc⟩ := List.mem_map.1 h
  split at hc
  · cases hc
  · next hne => exact hne hc

/-- dots are put back exactly where a name has no hyphens of its own -/
theorem dotted_hyphenated_iff {source : List Char} : dotted (hyphenated source) = source ↔ '-' ∉ source := by
  constructor
  · intro h hmem
    exact hyphen_notMem_dotted _ (h ▸ hmem)
  · intro h
    rw [dotted, hyphenated, List.map_map]
    conv_rhs => rw [← List.map_id source]
    refine List.map_congr_left ?_
    intro c hc
    have hne : c ≠ '-' := fun he => h (he ▸ hc)
    by_cases hdot : c = '.'
    · simp [hdot]
    · simp [hdot, hne]

/-! ## The source name of a generated name -/

theorem ConsistsOf.sourceName_eq {name before source rest : List Char} {kind : Kind}
    (h : ConsistsOf name before source kind rest) (required : Option Kind) :
    sourceName? required name =
      if required.all (· == kind) then some (if kind.isTypeName then dotted source else source) else none := by
  obtain ⟨g, hg, -, rfl, rfl, -⟩ := h.parse
  unfold sourceName?
  rw [hg]
  rfl

/-- whoever asks for no kind, or for that of the name, gets the source name, with dots for the hyphens of a type's name -/
theorem ConsistsOf.sourceName_of_fits {name before source rest : List Char} {kind : Kind}
    (h : ConsistsOf name before source kind rest) {required : Option Kind} (hr : required = none ∨ required = some kind) :
    sourceName? required name = some (if kind.isTypeName then dotted source else source) := by
  rw [h.sourceName_eq]
  rcases hr with rfl | rfl <;> simp

theorem ConsistsOf.sourceName_other {name before source rest : List Char} {kind : Kind}
    (h : ConsistsOf name before source kind rest) {other : Kind} (ho : other ≠ kind) :
    sourceName? (some other) name = none := by
  rw [h.sourceName_eq]
  simp [ho]

/-- what is stripped from a generated name of a type stands behind its kind -/
theorem ConsistsOf.strip {name before source rest : List Char} {kind : Kind}
    (h : ConsistsOf name before source kind rest) (hk : kind.isTypeName = true) :
    ∃ rest', ConsistsOf (Arity.strip name) before source kind rest' := by
  have hletter : kind.char.isDigit = false ∧ kind.char ≠ Arity.marker := by
    revert hk
    cases kind <;> decide
  have hrest := Arity.strip_behind (before ++ '<' :: source ++ ['>']) rest hletter.1 hletter.2
  refine ⟨Arity.strip rest, h.mark, h.balanced, ?_⟩
  have hname : name = before ++ '<' :: source ++ ['>'] ++ kind.char :: rest := by simp [h.text]
  rw [hname, hrest]
  simp

/-- the name of the state machine type of a method, with a rest that makes it unique -/
def stateMachineName (source rest : List Char) : List Char :=
  '<' :: hyphenated source ++ '>' :: Kind.stateMachineType.char :: rest

/-- the name of a state machine type gives back the name of its method, with or without an arity marker -/
theorem sourceName?_lowered {source : List Char} (hb : Balanced source) (hh : '-' ∉ source) (rest : List Char) :
    sourceName? (some .stateMachineType) (Arity.strip (stateMachineName source rest)) = some source := by
  have hparts : ConsistsOf (stateMachineName source rest) [] (hyphenated source) .stateMachineType rest :=
    ⟨.inl rfl, balancedFrom_hyphenated hb, rfl⟩
  obtain ⟨rest', hstrip⟩ := hparts.strip rfl
  rw [hstrip.sourceName_of_fits (.inr rfl), show Kind.stateMachineType.isTypeName = true from rfl, if_pos rfl,
    dotted_hyphenated_iff.2 hh]

/-- **Source names survive exactly when they have no hyphen.** The name of a helper type, stored with an arity marker or
without one, gives back the source name it was made of if and only if that name has no hyphen of its own. The name of
any other helper gives back its source name, and neither gives one to a caller that asks for another kind. -/
theorem source_names_survive {before source : List Char} (hm : before = [] ∨ before = marker) (hb : Balanced source)
    (kind : Kind) (rest : List Char) :
    (kind.isTypeName = true → ∀ shown stored, shown = before ++ '<' :: hyphenated source ++ '>' :: kind.char :: rest →
      (stored = shown ∨ ∃ digits, digits ≠ [] ∧ (∀ d ∈ digits, d.isDigit = true) ∧
        stored = shown ++ Arity.marker :: digits) →
      (∀ required, required = none ∨ required = some kind →
        (sourceName? required (Arity.strip stored) = some source ↔ '-' ∉ source)) ∧
      ∀ other, other ≠ kind → sourceName? (some other) (Arity.strip stored) = none) ∧
    (kind.isTypeName = false → ∀ shown, shown = before ++ '<' :: source ++ '>' :: kind.char :: rest →
      (∀ required, required = none ∨ required = some kind → sourceName? required shown = some source) ∧
      ∀ other, other ≠ kind → sourceName? (some other) shown = none) := by
  constructor
  · rintro hk shown stored rfl hstored
    have hparts : ∃ more, ConsistsOf stored before (hyphenated source) kind more := by
      rcases hstored with rfl | ⟨digits, -, -, rfl⟩
      · exact ⟨rest, hm, balancedFrom_hyphenated hb, rfl⟩
      · exact ⟨rest ++ Arity.marker :: digits, hm, balancedFrom_hyphenated hb, by simp⟩
    obtain ⟨more, hparts⟩ := hparts
    obtain ⟨rest', hstrip⟩ := hparts.strip hk
    refine ⟨fun required hr => ?_, fun other => hstrip.sourceName_other⟩
    rw [hstrip.sourceName_of_fits hr, if_pos hk, Option.some.injEq]
    exact dotted_hyphenated_iff
  · rintro hk shown rfl
    have hparts : ConsistsOf (before ++ '<' :: source ++ '>' :: kind.char :: rest) before source kind rest :=
      ⟨hm, hb, rfl⟩
    refine ⟨fun required hr => ?_, fun other => hparts.sourceName_other⟩
    rw [hparts.sourceName_of_fits hr, hk]
    rfl

/-- the name of a generic state machine gives back its explicit interface method; a hyphen of its own is lost -/
theorem source_names_survive_explicit :
    sourceName? (some .stateMachineType) (Arity.strip "<I-Get>d__1`2".toList) = some "I.Get".toList ∧
      sourceName? none (Arity.strip "CS$<a-b>c".toList) ≠ some "a-b".toList ∧
      sourceName? none "<a-b>b__0".toList = some "a-b".toList ∧
      sourceName? (some .lambdaMethod) (Arity.strip "<I-Get>d__1`2".toList) = none := by
  have hmethod := (source_names_survive (.inl rfl) (show Balanced "I.Get".toList by decide +kernel)
    .stateMachineType "__1".toList).1 rfl "<I-Get>d__1".toList "<I-Get>d__1`2".toList (by decide +kernel)
    (.inr ⟨['2'], by decide, by simp only [List.mem_singleton, forall_eq]; decide, by decide +kernel⟩)
  have hlost := (source_names_survive (.inr rfl) (show Balanced "a-b".toList by decide +kernel) .lambdaDisplayClass
    []).1 rfl "CS$<a-b>c".toList _ (by decide +kernel) (.inl rfl)
  have hkept := (source_names_survive (.inl rfl) (show Balanced "a-b".toList by decide +kernel) .lambdaMethod
    "__0".toList).2 rfl "<a-b>b__0".toList (by decide +kernel)
  refine ⟨(hmethod.1 _ (.inr rfl)).2 (by decide +kernel), ?_, hkept.1 none (.inl rfl), hmethod.2 _ (by decide)⟩
  intro h
  exact (hlost.1 none (.inl rfl)).1 h (by decide +kernel)

end GeneratedName

end FrameSymbols
