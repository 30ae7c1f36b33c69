/-
Where a serialized name leads.

A scan of the table decides which row a name leads to: the least row of the top-level name, and from there, for each
nested name, the first row of that name in the list of nested types (`Reader.Scans`). Rows that cannot be decoded are
passed over, and generic arguments play no part (`rowNamed_eq_some_iff`). The index of the top-level types finds the same
row as a scan, because the first row of a name stays in it (`topLevelRow_eq_find?`). The arguments are asked one after the
other, and they make an instance if all of them lead to a type and the definition takes as many (`instanceOf_spec`).
`names_resolve_by_scan` puts this together.
-/
import FrameSymbols.Proofs.Module.Damage
import FrameSymbols.Proofs.Module.Paths

namespace FrameSymbols

/-! ## The scan -/

/-- the row of a type that can be decoded, is nested in no other, and has the namespace and the name -/
structure Reader.TopNamed (reader : Reader) (space name : String) (row : UInt32) : Prop where
  inTable : row ≠ 0 ∧ row ≤ reader.rowCount .typeDef
  outermost : reader.encloser row = none
  named : ∃ typeRow, reader.typeRow row = .ok typeRow ∧ typeRow.space = space ∧ typeRow.name = name

/-- the first of some rows that can be decoded and has the name -/
def Reader.FirstNamed (reader : Reader) (name : String) (rows : List UInt32) (row : UInt32) : Prop :=
  (∃ typeRow, reader.typeRow row = .ok typeRow ∧ typeRow.name = name) ∧
    ∃ before after, rows = before ++ row :: after ∧
      ∀ other ∈ before, ∀ otherRow, reader.typeRow other = .ok otherRow → otherRow.name ≠ name

/-- each name leads on to the first row of the name among the types nested in the row before -/
inductive Reader.LeadsInto (reader : Reader) : UInt32 → List String → UInt32 → Prop where
  | here {row : UInt32} : LeadsInto reader row [] row
  | inside {row inner target : UInt32} {name : String} {names : List String}
      (first : reader.FirstNamed name (reader.nestedIn row) inner) (rest : LeadsInto reader inner names target) :
      LeadsInto reader row (name :: names) target

/-- the row that a scan of the table finds for a name: from the least row of the top-level type inwards -/
def Reader.Scans (reader : Reader) (n : TypeName) (row : UInt32) : Prop :=
  ∃ top, reader.TopNamed n.space n.top top ∧ (∀ other, reader.TopNamed n.space n.top other → top ≤ other) ∧
    reader.LeadsInto top n.nested row

theorem Reader.LeadsInto.decodes {reader : Reader} {row target : UInt32} {names : List String}
    (h : reader.LeadsInto row names target) (hr : ∃ typeRow, reader.typeRow row = .ok typeRow) :
    ∃ typeRow, reader.typeRow target = .ok typeRow := by
  induction h with
  | here => exact hr
  | inside first _ ih =>
    obtain ⟨typeRow, hinner, -⟩ := first.1
    exact ih ⟨typeRow, hinner⟩

/-- what a scan finds can be decoded -/
theorem Reader.Scans.decodes {reader : Reader} {n : TypeName} {row : UInt32} (h : reader.Scans n row) :
    ∃ typeRow, reader.typeRow row = .ok typeRow := by
  obtain ⟨top, htop, -, hinto⟩ := h
  obtain ⟨typeRow, hr, -⟩ := htop.named
  exact hinto.decodes ⟨typeRow, hr⟩

namespace LoadedModule

variable {m : LoadedModule} {memory : Memory}

/-- a name that has decorations, or that of another assembly -/
def Leaves (m : LoadedModule) (n : TypeName) : Prop :=
  (∃ name, n.assemblySimpleName = some name ∧ Text.sameIgnoringCase name m.assemblyName = false) ∨ n.suffixes ≠ []

theorem find?_isNamed_iff {reader : Reader} {name : String} {rows : List UInt32} {row : UInt32} :
    rows.find? (isNamed reader name) = some row ↔ reader.FirstNamed name rows row := by
  rw [List.find?_eq_some_iff_append, isNamed_iff, Reader.FirstNamed]
  simp only [Bool.not_eq_true', ← Bool.not_eq_true, isNamed_iff, not_exists, not_and]

/-- names are followed inwards as the scan says -/
theorem nestedRow_eq_some_iff {reader : Reader} {row target : UInt32} {names : List String} :
    nestedRow reader row names = some target ↔ reader.LeadsInto row names target := by
  induction names generalizing row with
  | nil =>
    constructor
    · rintro ⟨⟩
      exact .here
    · rintro ⟨⟩
      rfl
  | cons name names ih =>
    constructor
    · intro h
      obtain ⟨inner, hfind, hrest⟩ := Option.bind_eq_some_iff.1 h
      exact .inside (find?_isNamed_iff.1 hfind) (ih.1 hrest)
    · rintro (_ | ⟨hfirst, hrest⟩)
      exact Option.bind_eq_some_iff.2 ⟨_, find?_isNamed_iff.2 hfirst, ih.2 hrest⟩

/-- the top-level type of a name has the least row of those that have the name -/
theorem topLevelRow_eq_some_iff (hb : m.reader.BoundedTypes) {space name : String} {row : UInt32} :
    m.topLevelRow space name = some row ↔ m.reader.TopNamed space name row ∧
      ∀ other, m.reader.TopNamed space name other → row ≤ other := by
  obtain ⟨hpairwise, hmem⟩ := typeRows_spec hb
  have htop : ∀ other, m.reader.TopNamed space name other ↔
      other ∈ rowsFrom 1 (m.reader.rowCount .typeDef).toNat ∧ isTopLevel m.reader space name other = true := by
    intro other
    rw [hmem, isTopLevel_iff]
    exact ⟨fun h => ⟨h.inTable, h.outermost, h.named⟩, fun h => ⟨h.1, h.2.1, h.2.2⟩⟩
  rw [topLevelRow_eq_find?]
  constructor
  · intro hfind
    refine ⟨(htop row).2 ⟨List.mem_of_find?_eq_some hfind, List.find?_some hfind⟩, fun other hother => ?_⟩
    obtain ⟨hin, hnamed⟩ := (htop other).1 hother
    obtain ⟨-, before, after, hrows, hbefore⟩ := List.find?_eq_some_iff_append.1 hfind
    rw [hrows] at hin hpairwise
    -- the rows are in order, and none before the one that is found has the name
    rcases List.mem_append.1 hin with hin | hin
    · have hpassed := hbefore other hin
      rw [hnamed] at hpassed
      cases hpassed
    · rcases List.mem_cons.1 hin with rfl | hin
      · exact UInt32.le_refl _
      · exact UInt32.le_of_lt ((List.pairwise_cons.1 (List.pairwise_append.1 hpairwise).2.1).1 other hin)
  · rintro ⟨hrow, hleast⟩
    obtain ⟨hin, hnamed⟩ := (htop row).1 hrow
    exact find?_least hpairwise hin hnamed fun other ho hp => hleast other ((htop other).2 ⟨ho, hp⟩)

/-! ## Names and rows -/

/-- **A name leads to the row that a scan finds**, unless it leaves the module. -/
theorem rowNamed_eq_some_iff (hb : m.reader.BoundedTypes) {n : TypeName} {row : UInt32} :
    m.rowNamed n = some row ↔ ¬ m.Leaves n ∧ m.reader.Scans n row := by
  have hhere : (n.assemblySimpleName.all (Text.sameIgnoringCase · m.assemblyName) && n.suffixes.isEmpty) = true ↔
      ¬ m.Leaves n := by
    rw [Leaves, not_or, not_not, Bool.and_eq_true, List.isEmpty_iff, Option.all_eq_true]
    simp
  unfold rowNamed
  split
  · next h =>
    rw [iff_true_intro (hhere.1 h), true_and, Reader.Scans]
    simp only [bind, Option.bind_eq_some_iff, topLevelRow_eq_some_iff hb, nestedRow_eq_some_iff, and_assoc]
  · next h =>
    rw [hhere] at h
    simp [h]

/-! ## Generic arguments -/

/-- what names lead to, each asked in the memory that those before it leave behind -/
def asked (m : LoadedModule) (memory : Memory) : List TypeName → List (Option TypeSymbol)
  | [] => []
  | n :: ns => ((m.typeNamed n).runFrom memory).1.toOption.join :: m.asked ((m.typeNamed n).runFrom memory).2 ns

theorem length_asked (memory : Memory) (ns : List TypeName) : (m.asked memory ns).length = ns.length := by
  induction ns generalizing memory with
  | nil => rfl
  | cons n ns ih => rw [asked, List.length_cons, List.length_cons, ih]

/-- arguments are found if each of them leads to a type -/
theorem typesNamed_eq_some_iff {ns : List TypeName} {ts : List TypeSymbol} :
    ((m.typesNamed ns).runFrom memory).1 = .ok (some ts) ↔ m.asked memory ns = ts.map some := by
  induction ns generalizing memory ts with
  | nil =>
    unfold typesNamed asked
    cases ts <;> simp
  | cons n ns ih =>
    unfold typesNamed asked
    rw [Action.runFrom_bind, Action.runFrom_toOption]
    rcases (m.typeNamed n).runFrom memory with ⟨_ | _ | t, after⟩
    · cases ts <;> simp [Except.toOption]
    · cases ts <;> simp [Except.toOption]
    · obtain ⟨found, hfound⟩ := m.typesNamed_answers ns after
      have hanswer : ((((·.map (t :: ·)) <$> m.typesNamed ns) : Query (Option (List TypeSymbol))).runFrom after).1 =
          .ok (found.map (t :: ·)) := by rw [Action.runFrom_map, hfound]; rfl
      change (((·.map (t :: ·)) <$> m.typesNamed ns : Query (Option (List TypeSymbol))).runFrom after).1 = _ ↔
        some t :: m.asked after ns = _
      rw [hanswer]
      cases ts with
      | nil => simp
      | cons u us =>
        have hrest := @ih after us
        rw [hfound, Except.ok.injEq] at hrest
        simp [← hrest, and_comm]

/-- arguments do not change the definition, and they make an instance exactly if all of them lead to a type and the
definition takes as many -/
theorem instanceOf_spec {d : TypeSymbol} (hd : d.isInstance = false) (args : List TypeName) (memory : Memory) :
    (m.instanceOf memory d args).definition = d ∧
      ∀ ts, (m.instanceOf memory d args).isInstance = true ∧ (m.instanceOf memory d args).args = ts ↔
        args ≠ [] ∧ ts.length = d.genericParams.length ∧ m.asked memory args = ts.map some := by
  have hdefinition : d.definition = d := TypeSymbol.definition_eq_self_iff.2 hd
  refine ⟨(m.definition_instanceOf memory d args).trans hdefinition, fun ts => ?_⟩
  obtain ⟨found, hfound⟩ := m.typesNamed_answers args memory
  unfold instanceOf
  rw [← typesNamed_eq_some_iff, hfound]
  cases found with
  | none => simp [hd]
  | some us =>
    have hlength : us.length = args.length := by
      rw [← length_asked memory args, typesNamed_eq_some_iff.1 hfound, List.length_map]
    simp only [Except.ok.injEq, Option.some.injEq]
    cases hu : d.construct us with
    | error e =>
      refine iff_of_false (fun h => by simp [Except.toOption, hd] at h) ?_
      rintro ⟨hargs, hfits, rfl⟩
      rcases TypeSymbol.construct_fails_iff.1 ⟨e, hu⟩ with hnone | hne
      · rw [hdefinition] at hnone
        rw [hnone, hlength] at hfits
        exact hargs (List.length_eq_zero_iff.1 hfits)
      · exact hne (by rw [hdefinition, hfits])
    | ok u =>
      have hinstance := TypeSymbol.isInstance_of_construct hu
      have hus := TypeSymbol.args_of_construct hu
      obtain ⟨⟨-, hfits⟩, -⟩ := TypeSymbol.construct_eq_ok_iff.1 hu
      rw [hdefinition] at hfits
      rw [show (Except.ok u).toOption.getD d = u from rfl, hus]
      constructor
      · rintro ⟨-, rfl⟩
        refine ⟨?_, hfits, rfl⟩
        rintro rfl
        exact TypeSymbol.args_ne_nil_of_construct hu (List.length_eq_zero_iff.1 hlength)
      · rintro ⟨-, -, rfl⟩
        exact ⟨hinstance, rfl⟩

/-! ## The outcome -/

/-- what comes of a name: `missing` if it leaves the module or the scan finds no row, or else the error or the symbol of
that row, with the arguments put in if they all lead to types and the definition takes as many -/
structure FoundByScan {α : Type} (m : LoadedModule) (memory : Memory) (n : TypeName) (missing : Except Error α)
    (found : TypeSymbol → α) (outcome : Except Error α) : Prop where
  missing_iff : outcome = missing ↔ m.Leaves n ∨ ∀ row, ¬ m.reader.Scans n row
  fails : ∀ row e, ¬ m.Leaves n → m.reader.Scans n row →
    ((m.resolveType (.ofParts .typeDef row)).runFrom memory).1 = .error e → outcome = .error e
  leads : ∀ row d after, ¬ m.Leaves n → m.reader.Scans n row →
    (m.resolveType (.ofParts .typeDef row)).runFrom memory = (.ok d, after) →
      ∃ t, outcome = .ok (found t) ∧ t.definition = d ∧
        ∀ ts, t.isInstance = true ∧ t.args = ts ↔
          n.args ≠ [] ∧ ts.length = d.genericParams.length ∧ m.asked after n.args = ts.map some

variable {α : Type} {n : TypeName} {missing outcome : Except Error α} {found : TypeSymbol → α}

theorem foundByScan_of_none (hb : m.reader.BoundedTypes) (hrow : m.rowNamed n = none) :
    m.FoundByScan memory n missing found missing := by
  have hno : ∀ row, ¬ m.Leaves n → ¬ m.reader.Scans n row := by
    intro row hl hs
    have := (rowNamed_eq_some_iff hb).2 ⟨hl, hs⟩
    rw [hrow] at this
    cases this
  refine ⟨iff_of_true rfl ?_, fun row _ hl hs => absurd hs (hno row hl), fun row _ _ hl hs => absurd hs (hno row hl)⟩
  by_cases hl : m.Leaves n
  · exact .inl hl
  · exact .inr fun row => hno row hl

/-- only one row has to be looked at -/
theorem foundByScan_of_some (hb : m.reader.BoundedTypes) {row : UInt32} (hrow : m.rowNamed n = some row)
    (hout : outcome ≠ missing)
    (hfails : ∀ e, ((m.resolveType (.ofParts .typeDef row)).runFrom memory).1 = .error e → outcome = .error e)
    (hleads : ∀ d after, (m.resolveType (.ofParts .typeDef row)).runFrom memory = (.ok d, after) →
      ∃ t, outcome = .ok (found t) ∧ t.definition = d ∧ ∀ ts, t.isInstance = true ∧ t.args = ts ↔
        n.args ≠ [] ∧ ts.length = d.genericParams.length ∧ m.asked after n.args = ts.map some) :
    m.FoundByScan memory n missing found outcome := by
  obtain ⟨hl, hs⟩ := (rowNamed_eq_some_iff hb).1 hrow
  have hunique : ∀ other, m.reader.Scans n other → other = row := by
    intro other ho
    have := (rowNamed_eq_some_iff hb).2 ⟨hl, ho⟩
    rw [hrow, Option.some.injEq] at this
    exact this.symm
  refine ⟨iff_of_false hout (not_or.2 ⟨hl, fun hno => hno row hs⟩), ?_, ?_⟩
  · intro other e _ ho
    rw [hunique other ho]
    exact hfails e
  · intro other d after _ ho
    rw [hunique other ho]
    exact hleads d after

/-- what is made of the answer for a parsed name is found by the scan, as long as no error of the tables and no type is
taken for a missing one -/
theorem foundByScan_typeNamed (hb : m.reader.BoundedTypes) (hr : m.reader.ReportsDamage) (h : m.Coherent memory)
    (n : TypeName) {answer : Option TypeSymbol → Except Error α} (hnone : answer none = missing)
    (hsome : ∀ t, answer (some t) = .ok (found t)) (hfound : ∀ t, .ok (found t) ≠ missing)
    (hdamage : ∀ e, e.IsDamage → .error e ≠ missing) :
    m.FoundByScan memory n missing found (((m.typeNamed n).runFrom memory).1.bind answer) := by
  have hanswer := m.runFrom_typeNamed n memory
  cases hrow : m.rowNamed n with
  | none =>
    rw [hrow] at hanswer
    rw [hanswer, show (Except.ok none, memory).1.bind answer = missing from hnone]
    exact foundByScan_of_none hb hrow
  | some row =>
    obtain ⟨typeRow, htr⟩ := ((rowNamed_eq_some_iff hb).1 hrow).2.decodes
    obtain ⟨h0, hle⟩ := hb.typeRow row typeRow htr
    have hresolve := runFrom_resolveType_ofParts hb h0 hle memory
    have hsound := typeOfRow_sound row h
    rw [hrow] at hanswer
    simp only at hanswer
    cases hrun : (m.typeOfRow row).runFrom memory with
    | mk decoded after =>
      rw [hrun] at hanswer hresolve
      cases decoded with
      | error e =>
        have he : e.IsDamage := typeOfRow_damage hr (by rw [hrun])
        rw [hanswer]
        refine foundByScan_of_some hb hrow (hdamage e he) ?_ ?_
        · intro e' hfail
          rw [hresolve] at hfail
          cases hfail
          rfl
        · intro d after' hok
          rw [hresolve] at hok
          cases hok
      | ok d =>
        have hd : d.isInstance = false := hsound.keeps.type_isInstance (hsound.answers d (by rw [hrun]))
        obtain ⟨hdefinition, hargs⟩ := m.instanceOf_spec hd n.args after
        rw [hanswer]
        simp only [Except.bind, hsome]
        refine foundByScan_of_some hb hrow (hfound _) ?_ ?_
        · intro e hfail
          rw [hresolve] at hfail
          cases hfail
        · intro d' after' hok
          rw [hresolve] at hok
          cases hok
          exact ⟨_, rfl, hdefinition, hargs⟩

/-- **Names resolve by a scan of the table.** At any time, a text that can be read is reported as missing if and only if
its name leaves the module or the scan finds no row for it. Otherwise the outcome is that of the row's own token: its
error, or a type whose definition is its symbol. The type is an instance exactly if the name has arguments, all of them
lead to types, and the definition takes as many; these types are then its arguments, in order. Where an argument leads
is decided in the same way. -/
theorem names_resolve_by_scan (hb : m.reader.BoundedTypes) (hr : m.reader.ReportsDamage) (asks : List Ask)
    (text : String) (n : TypeName) (hn : TypeName.parse text = .ok n) :
    m.FoundByScan (m.after asks) n (.error (.typeNotFound text)) (fun t => t)
        ((m.typeForName text).runFrom (m.after asks)).1 ∧
      ∀ memory arg, m.Coherent memory → m.Coherent ((m.typeNamed arg).runFrom memory).2 ∧
        m.FoundByScan memory arg (.ok none) some ((m.typeNamed arg).runFrom memory).1 := by
  constructor
  · have hanswer : ((m.typeForName text).runFrom (m.after asks)).1 =
        ((m.typeNamed n).runFrom (m.after asks)).1.bind (·.elim (.error (.typeNotFound text)) .ok) := by
      unfold typeForName
      rw [Action.runFrom_bind, Action.runFrom_lift, hn]
      simp only [Action.runFrom_bind]
      rcases (m.typeNamed n).runFrom (m.after asks) with ⟨_ | _ | t, after⟩ <;> rfl
    rw [hanswer]
    refine foundByScan_typeNamed hb hr (m.after_coherent asks) n rfl (fun _ => rfl) (fun _ => by simp) ?_
    rintro _ (⟨damage, rfl⟩ | ⟨levels, rfl⟩) <;> simp
  · intro memory arg h
    refine ⟨(typeNamed_sound arg h).keeps, ?_⟩
    have hanswer : ∀ x : Except Error (Option TypeSymbol), x.bind .ok = x := by rintro (_ | _) <;> rfl
    rw [← hanswer ((m.typeNamed arg).runFrom memory).1]
    exact foundByScan_typeNamed hb hr h arg rfl (fun _ => rfl) (fun _ => by simp) (fun _ _ => by simp)

/-- a module with a generic type, a type to put into it, and another type of the first name -/
def genericImage : Image :=
  ((Image.empty "Gen.dll" ⟨.replicate 16 7⟩).addAll
    [.assembly "Gen", .type "Gen" "Box`1" 1, .genericParams (.ofParts .typeDef 1) ["T"], .type "Gen" "Item" 1,
      .type "Gen" "Box`1" 1]).1

def genericView : LoadedModule := genericImage.view

/-- a name with an argument leads to an instance of the first type of the name -/
theorem names_resolve_by_scan_generic :
    ∃ n t d after, TypeName.parse "Gen.Box`1[[Gen.Item, gen]]" = .ok n ∧ genericView.reader.Scans n 1 ∧
      (genericView.resolveType (.ofParts .typeDef 1)).runFrom (genericView.after []) = (.ok d, after) ∧
      ((genericView.typeForName "Gen.Box`1[[Gen.Item, gen]]").runFrom (genericView.after [])).1 = .ok t ∧
      t.text = "Gen.Box`1[Gen.Item]" ∧ t.definition = d ∧ genericView.asked after n.args = t.args.map some := by
  have hb : genericView.reader.BoundedTypes :=
    (Image.bounded_of_size (by decide) (by decide) : genericImage.reader.Bounded).boundedTypes
  have hrow : (TypeName.parse "Gen.Box`1[[Gen.Item, gen]]").toOption.bind genericView.rowNamed = some 1 := by
    decide +kernel
  have htext : ((genericView.typeForName "Gen.Box`1[[Gen.Item, gen]]").runFrom (genericView.after [])).1.toOption.map
      (fun t => (t.text, t.isInstance)) = some ("Gen.Box`1[Gen.Item]", true) := by decide +kernel
  have hresolves : ((genericView.resolveType (.ofParts .typeDef 1)).runFrom (genericView.after [])).1.isOk = true := by
    decide +kernel
  obtain ⟨n, hn, hrow⟩ := Option.bind_eq_some_iff.1 hrow
  obtain ⟨t, ht, htext⟩ := Option.map_eq_some_iff.1 htext
  obtain ⟨htext, hinstance⟩ := Prod.mk.inj htext
  have hn := Except.eq_ok_of_toOption hn
  have ht := Except.eq_ok_of_toOption ht
  obtain ⟨hl, hs⟩ := (rowNamed_eq_some_iff hb).1 hrow
  rcases hrun : (genericView.resolveType (.ofParts .typeDef 1)).runFrom (genericView.after []) with ⟨e | d, after⟩
  · rw [hrun] at hresolves
    cases hresolves
  · obtain ⟨u, hu, hdefinition, hargs⟩ :=
      (names_resolve_by_scan hb genericImage.reportsDamage [] _ n hn).1.leads 1 d after hl hs hrun
    rw [ht, Except.ok.injEq] at hu
    subst hu
    exact ⟨n, t, d, after, hn, hs, rfl, ht, htext, hdefinition, ((hargs t.args).1 ⟨hinstance, rfl⟩).2.2⟩

end LoadedModule

end FrameSymbols
