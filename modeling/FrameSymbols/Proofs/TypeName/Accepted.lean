/-
The names that can be read at all.

Whatever is read is well formed: a name has lost the blanks at its end and is not empty (`simpleName_spec`), an array has
one comma at least (`ranks_of_decorations`, for a text too short to count a dimension past 32 bits), and an assembly is
trimmed and, in an argument, ends before the bracket (`isTrimmed_of_qualifier`). With the canonical text of what is well
formed this makes reading and printing inverse to each other (`reading_inverts_printing`).
-/
import FrameSymbols.Proofs.TypeName.Canonical
import Mathlib.Algebra.Group.Nat.Defs
import Mathlib.Data.List.Basic

namespace FrameSymbols.TypeName

open Text

/-! ## Blanks -/

theorem isPrefix_dropWhileEnd {α : Type} (p : α → Bool) (xs : List α) : dropWhileEnd p xs <+: xs := by
  rw [dropWhileEnd, ← List.reverse_suffix, List.reverse_reverse]
  exact List.dropWhile_suffix p

theorem ending_dropWhileEnd {α : Type} (p : α → Bool) (xs : List α) : ∀ x ∈ (dropWhileEnd p xs).getLast?, p x = false := by
  intro x hx
  rw [dropWhileEnd, List.getLast?_reverse] at hx
  have hhead := List.head?_dropWhile_not p xs.reverse
  rw [hx] at hhead
  exact hhead

theorem mem_of_mem_trim {c : Char} {cs : List Char} (h : c ∈ trim cs) : c ∈ cs :=
  (List.dropWhile_suffix _).subset ((isPrefix_dropWhileEnd isBlank (trimStart cs)).subset h)

/-- what is left of a text after trimming is trimmed, unless nothing is left -/
theorem isTrimmed_trim {cs : List Char} (h : trim cs ≠ []) : IsTrimmed (String.ofList (trim cs)) where
  nonempty := by simpa using h
  starting := by
    intro c hc
    rw [String.toList_ofList] at hc
    obtain ⟨rest, hrest⟩ : trim cs <+: trimStart cs := isPrefix_dropWhileEnd isBlank (trimStart cs)
    have hhead := List.head?_dropWhile_not isBlank cs
    rw [← trimStart, ← hrest, List.mem_head?_append_of_mem_head? hc] at hhead
    exact hhead
  ending := by
    rw [String.toList_ofList]
    exact ending_dropWhileEnd isBlank _

/-! ## Names -/

theorem simpleName_spec {s rest : List Char} {ls : List Letter} (h : simpleName s = .ok (ls, rest)) :
    ls ≠ [] ∧ ∀ l ∈ ls.getLast?, isBlank l.char = false := by
  obtain ⟨p, -, h⟩ := bind_eq_ok_iff.1 h
  by_cases hkept : dropWhileEnd (fun l => isBlank l.char) p.1 = []
  · rw [if_pos hkept] at h
    cases h
  · rw [if_neg hkept] at h
    cases h
    exact ⟨hkept, ending_dropWhileEnd _ _⟩

theorem isSimpleName_spell {ls : List Letter} (hne : ls ≠ []) (hend : ∀ l ∈ ls.getLast?, isBlank l.char = false) :
    IsSimpleName (spell ls) where
  nonempty := by simpa [spell] using hne
  ending := by
    intro c hc
    rw [spell, String.toList_ofList, List.getLast?_map, Option.mem_def] at hc
    obtain ⟨l, hl, rfl⟩ := Option.map_eq_some_iff.1 hc
    exact hend l hl

/-- the name behind the namespace ends as the letters end -/
theorem splitSpace_suffix (ls : List Letter) : ∃ top, top <:+ ls ∧ (splitSpace ls).2 = spell top := by
  unfold splitSpace
  dsimp only
  split
  · refine ⟨_, ?_, rfl⟩
    rw [← List.reverse_prefix, List.reverse_reverse]
    exact List.takeWhile_prefix _
  · exact ⟨ls, List.suffix_rfl, rfl⟩

theorem isSimpleName_top {ls : List Letter} (hend : ∀ l ∈ ls.getLast?, isBlank l.char = false)
    (htop : (splitSpace ls).2 ≠ "") : IsSimpleName (splitSpace ls).2 := by
  obtain ⟨top, hsuffix, hspell⟩ := splitSpace_suffix ls
  rw [hspell] at htop ⊢
  have hne : top ≠ [] := by simpa [spell] using htop
  obtain ⟨before, rfl⟩ := hsuffix
  exact isSimpleName_spell hne fun l hl => hend l (List.mem_getLast?_append_of_mem_getLast? hl)

theorem isSimpleName_of_nestedNames {s rest : List Char} {names : List String} (h : nestedNames s = .ok (names, rest)) :
    ∀ name ∈ names, IsSimpleName name := by
  fun_induction nestedNames s generalizing names rest with
  | case1 =>
    cases h
    exact fun name hname => absurd hname List.not_mem_nil
  | case2 cs ih =>
    obtain ⟨p, hp, h⟩ := attach_bind_eq_ok_iff.1 h
    obtain ⟨q, hq, h⟩ := bind_eq_ok_iff.1 h
    cases h
    intro name hname
    rcases List.mem_cons.1 hname with rfl | hname
    · exact isSimpleName_spell (simpleName_spec hp).1 (simpleName_spec hp).2
    · exact ih p hp hq name hname
  | case3 =>
    cases h
    exact fun name hname => absurd hname List.not_mem_nil

/-! ## Decorations and assemblies -/

theorem two_le_of_ofRank {n r : UInt32} (hn : n ≠ 0) (h : Suffix.ofRank n = .array r) : 2 ≤ r := by
  by_cases h1 : n = 1
  · rw [Suffix.ofRank, if_pos h1] at h
    cases h
  · rw [Suffix.ofRank, if_neg h1] at h
    cases h
    have h0' := mt UInt32.toNat_inj.1 hn
    have h1' := mt UInt32.toNat_inj.1 h1
    rw [UInt32.le_iff_toNat_le]
    simp only [UInt32.reduceToNat] at h0' h1' ⊢
    omega

theorem ranks_behind {cs rest : List Char} {s : Suffix} {suffixes : List Suffix} (hs : ∀ r, s = .array r → 2 ≤ r)
    (ih : ∀ {suffixes rest}, decorations none cs = .ok (suffixes, rest) → ∀ r, .array r ∈ suffixes → 2 ≤ r)
    (h : (decorations none cs).map (fun p => (s :: p.1, p.2)) = .ok (suffixes, rest)) :
    ∀ r, .array r ∈ suffixes → 2 ≤ r := by
  intro r hr
  obtain ⟨p, hp, h⟩ := map_eq_ok_iff.1 h
  cases h
  rcases List.mem_cons.1 hr with hr | hr
  · exact hs r hr.symm
  · exact ih hp r hr

/-- each comma that is left may add a dimension; while all of them fit into 32 bits the count does not wrap -/
theorem ranks_of_decorations {rank : Option UInt32} {s rest : List Char} {suffixes : List Suffix}
    (h : decorations rank s = .ok (suffixes, rest)) (hroom : rank.elim 0 UInt32.toNat + s.length < 2 ^ 32)
    (hrank : ∀ n ∈ rank, n ≠ 0) : ∀ r, .array r ∈ suffixes → 2 ≤ r := by
  fun_induction decorations rank s generalizing suffixes rest with
  | case1 | case6 =>
    cases h
    exact nofun
  | case2 | case10 => cases h
  | case3 cs ih | case4 cs _ ih =>
    simp only [Option.elim, List.length_cons] at hroom ih
    exact ranks_behind (fun _ h => by cases h) (fun h => ih h (by omega) nofun) h
  | case5 cs _ _ ih =>
    simp only [Option.elim, List.length_cons, UInt32.reduceToNat] at hroom ih
    exact ih h (by omega) fun n hn => by cases hn; decide
  | case7 cs n ih =>
    simp only [Option.elim, List.length_cons] at hroom ih
    have hnext : (n + 1).toNat = n.toNat + 1 := by
      simp only [UInt32.toNat_add, UInt32.reduceToNat]
      omega
    refine ih h (by omega) fun m hm => ?_
    cases hm
    exact fun h0 => by simp [h0] at hnext
  | case8 cs n _ ih =>
    simp only [Option.elim, List.length_cons] at hroom ih
    exact ih h (by omega) hrank
  | case9 cs n _ _ ih =>
    simp only [Option.elim, List.length_cons] at hroom ih
    exact ranks_behind (fun r => two_le_of_ofRank (hrank n rfl)) (fun h => ih h (by omega) nofun) h

theorem isTrimmed_of_qualifier {bracketed : Bool} {s rest : List Char} {assembly : Option String}
    (h : qualifier bracketed s = .ok (assembly, rest)) :
    ∀ name ∈ assembly, IsTrimmed name ∧ (bracketed = true → ']' ∉ name.toList) := by
  have hname : ∀ cs : List Char, trim cs ≠ [] → (bracketed = true → ']' ∉ cs) →
      ∀ name ∈ some (String.ofList (trim cs)), IsTrimmed name ∧ (bracketed = true → ']' ∉ name.toList) := by
    intro cs hne hclosed name hname
    cases hname
    exact ⟨isTrimmed_trim hne, fun hb hin => hclosed hb (mem_of_mem_trim (by simpa using hin))⟩
  cases s with
  | nil =>
    cases h
    exact nofun
  | cons c cs =>
    rw [qualifier] at h
    by_cases hc : c = ','
    · rw [if_pos hc] at h
      by_cases hne : trim (if bracketed then cs.takeWhile (· ≠ ']') else cs) = []
      · simp only [if_pos hne] at h
        cases h
      · simp only [if_neg hne] at h
        cases h
        refine hname _ hne fun hb => ?_
        rw [if_pos hb]
        exact fun hin => by simpa using List.mem_takeWhile_imp hin
    · rw [if_neg hc] at h
      cases h
      exact nofun

/-! ## Whole names -/

theorem ReadsType.names {s rest : List Char} {n : TypeName} (h : ReadsType s n rest) :
    ∀ name ∈ n.top :: n.nested, IsSimpleName name := by
  obtain ⟨ls, r, names, r', args, r'', suffixes, hname, hnested, htop, -, -, rfl⟩ := readsType_iff.1 h
  intro name hin
  rcases List.mem_cons.1 hin with rfl | hin
  · exact isSimpleName_top (simpleName_spec hname).2 htop
  · exact isSimpleName_of_nestedNames hnested name hin

theorem names_of_parse {text : String} {n : TypeName} (h : parse text = .ok n) :
    ∀ name ∈ n.top :: n.nested, IsSimpleName name := by
  obtain ⟨t, r, assembly, ht, -, rfl⟩ := parseChars_eq_ok_iff.1 (parse_eq_ok_iff.1 h)
  exact ht.names

theorem WellFormed.qualify {n : TypeName} (h : n.WellFormed) {assembly : Option String}
    (ha : ∀ name ∈ assembly, IsTrimmed name) : WellFormed { n with assembly } := by
  cases h with
  | intro names ranks _ args closed => exact .intro names ranks ha args closed

mutual

theorem ReadsType.wellFormed {s rest : List Char} {n : TypeName} (h : ReadsType s n rest) (hs : s.length < 2 ^ 32) :
    n.WellFormed ∧ n.assembly = none := by
  have hnames := h.names
  obtain ⟨ls, r, names, r', args, r'', suffixes, hname, hnested, htop, hargs, hsuffix, rfl⟩ := readsType_iff.1 h
  have hr : r'.length < s.length := by
    have := length_of_simpleName hname
    have := length_of_nestedNames hnested
    have := length_trimStart_le s
    omega
  have htail := List.length_tail (l := r')
  have hread : (∀ arg ∈ args, arg.WellFormed ∧ ∀ name ∈ arg.assembly, ']' ∉ name.toList) ∧ r''.length < 2 ^ 32 := by
    unfold ReadsArgsAfter at hargs
    split at hargs
    · have := hargs.shorter
      exact ⟨hargs.wellFormed (by omega), by omega⟩
    · obtain ⟨rfl, rfl⟩ := hargs
      exact ⟨nofun, by omega⟩
  have hranks := ranks_of_decorations hsuffix (by simpa using hread.2) nofun
  exact ⟨.intro hnames hranks nofun (fun arg ha => (hread.1 arg ha).1) fun arg ha => (hread.1 arg ha).2, rfl⟩
  termination_by 2 * s.length
  decreasing_by omega

theorem ReadsArgs.wellFormed {s rest : List Char} {args : List TypeName} (h : ReadsArgs s args rest)
    (hs : s.length < 2 ^ 32) : ∀ arg ∈ args, arg.WellFormed ∧ ∀ name ∈ arg.assembly, ']' ∉ name.toList := by
  obtain ⟨arg, r, harg, hmore⟩ := readsArgs_iff.1 h
  have hr := harg.shorter
  have htrim := length_trimStart_le s
  have htail := List.length_tail (l := trimStart s)
  have hfirst : arg.WellFormed ∧ ∀ name ∈ arg.assembly, ']' ∉ name.toList := by
    unfold ReadsArg at harg
    split at harg
    · obtain ⟨n, r1, assembly, r', ht, hq, -, rfl⟩ := harg
      have hspec := ht.wellFormed (by omega)
      have hassembly := isTrimmed_of_qualifier hq
      exact ⟨hspec.1.qualify fun name hn => (hassembly name hn).1, fun name hn => (hassembly name hn).2 rfl⟩
    · have hspec := harg.wellFormed hs
      exact ⟨hspec.1, by rw [hspec.2]; exact nofun⟩
  rcases hmore with ⟨-, more, hm, rfl⟩ | ⟨-, rfl, -⟩
  · have := length_trimStart_le r
    have := List.length_tail (l := trimStart r)
    have hrest := hm.wellFormed (by omega)
    intro a ha
    rcases List.mem_cons.1 ha with rfl | ha
    · exact hfirst
    · exact hrest a ha
  · intro a ha
    rw [List.mem_singleton.1 ha]
    exact hfirst
  termination_by 2 * s.length + 1
  decreasing_by all_goals omega

end

/-- whatever a text is read as is well formed -/
theorem wellFormed_of_parse {text : String} {n : TypeName} (h : parse text = .ok n) (hs : text.length < 2 ^ 32) :
    n.WellFormed := by
  obtain ⟨t, r, assembly, ht, hq, rfl⟩ := parseChars_eq_ok_iff.1 (parse_eq_ok_iff.1 h)
  exact (ht.wellFormed hs).1.qualify fun name hn => (isTrimmed_of_qualifier hq name hn).1

/-- **Reading undoes printing, and every text that is read means what its canonical text means.** -/
theorem reading_inverts_printing :
    (∀ n : TypeName, n.WellFormed → parse n.print = .ok n) ∧
      ∀ (text : String) (n : TypeName), text.length < 2 ^ 32 → parse text = .ok n →
        n.WellFormed ∧ parse n.print = parse text :=
  ⟨fun _ h => h.parse_print, fun _ _ hs h =>
    have hn := wellFormed_of_parse h hs
    ⟨hn, hn.parse_print.trans h.symm⟩⟩

/-- a name with an escaped dot, an assembly that closes brackets, and arguments of both kinds -/
def sample : TypeName :=
  ⟨"Lib", "Map.Of", ["Row[]"], [⟨"", "Key", [], [], [.pointer], some "Core, Version=1"⟩, ⟨"", "a b", [], [], [], none⟩],
    [.array 3, .byRef], some "App]"⟩

theorem sample_wellFormed : sample.WellFormed := by
  have hleaf : ∀ arg ∈ sample.args, arg.WellFormed := by
    intro arg harg
    simp only [sample, List.mem_cons, List.not_mem_nil, or_false] at harg
    rcases harg with rfl | rfl <;> exact .intro (by decide) (by simp) (by decide) nofun nofun
  exact .intro (by decide) (by simp [sample]) (by decide) hleaf (by decide)

theorem reading_inverts_printing_sample :
    sample.print = "Lib.Map\\.Of+Row\\[\\][[Key*, Core, Version=1],[a\\ b]][,,]&, App]" ∧
      sample.WellFormed ∧ parse sample.print = .ok sample := by
  have hread := reading_inverts_printing.1 sample sample_wellFormed
  have hback := reading_inverts_printing.2 sample.print sample (by decide) hread
  exact ⟨by rfl, hback.1, hback.2.trans hread⟩

end FrameSymbols.TypeName
