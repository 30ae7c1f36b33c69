/-
The canonical text of a type name.

A name is printed with a backslash before every character that needs one, each argument in brackets of its own, one comma
less than an array has dimensions, and the assembly behind a comma and a blank. Whatever is well formed is read back from
its canonical text (`WellFormed.parse_print`): the letters and the path as any spelling is, the decorations by
`suffixList_print`, and the arguments by induction over the tree.
-/
import FrameSymbols.Proofs.TypeName.Spelling

namespace FrameSymbols.TypeName

open Text

/-! ## Printing -/

/-- a letter of a namespace, escaped where it has to be -/
def spaceLetter (c : Char) : Letter := ⟨c, !isPlain c⟩

/-- a letter of the name of a type, where a dot has to be escaped as well -/
def nameLetter (c : Char) : Letter := ⟨c, !isPlain c || c = '.'⟩

/-- the path of a name, with nothing escaped but what has to be -/
def path (n : TypeName) : Path where
  space := n.space.toList.map spaceLetter
  top := n.top.toList.map nameLetter
  nested := n.nested.map (·.toList.map nameLetter)

def Suffix.text : Suffix → List Char
  | .pointer => ['*']
  | .byRef => ['&']
  | .vector => ['[', ']']
  | .array rank => '[' :: (List.replicate (rank.toNat - 1) ',' ++ [']'])

mutual

/-- path, arguments and decorations -/
def printSpec : TypeName → List Char
  | ⟨space, top, nested, args, suffixes, assembly⟩ =>
    (path ⟨space, top, nested, args, suffixes, assembly⟩).text ++
      ((if args.isEmpty then [] else '[' :: printArgs args) ++ suffixes.flatMap Suffix.text)

/-- arguments, each in brackets of its own, and the bracket that closes them -/
def printArgs : List TypeName → List Char
  | [] => []
  | arg :: args =>
    '[' :: (printSpec arg ++ (Path.qualification arg.assembly ++
      ']' :: (if args.isEmpty then ']' else ',') :: printArgs args))

end

/-- the canonical text -/
def print (n : TypeName) : String := String.ofList (printSpec n ++ Path.qualification n.assembly)

/-! ## Names that can be printed -/

/-- the name of a type as it is read: not empty, and no blank at the end -/
structure IsSimpleName (name : String) : Prop where
  nonempty : name ≠ ""
  ending : ∀ c ∈ name.toList.getLast?, isBlank c = false

instance (name : String) : Decidable (IsSimpleName name) :=
  decidable_of_iff (name ≠ "" ∧ (name.toList.getLast?.all fun c => !isBlank c) = true)
    ⟨fun h => ⟨h.1, by simpa [Option.all_eq_true] using h.2⟩, fun h => ⟨h.1, by simpa [Option.all_eq_true] using h.2⟩⟩

/-- every name is one, an array has at least two dimensions, an assembly has no blanks around it, all of this holds of
the arguments, and the assembly of an argument does not close its brackets -/
inductive WellFormed : TypeName → Prop where
  | intro {n : TypeName} (names : ∀ name ∈ n.top :: n.nested, IsSimpleName name)
      (ranks : ∀ rank, .array rank ∈ n.suffixes → 2 ≤ rank) (assembly : ∀ name ∈ n.assembly, IsTrimmed name)
      (args : ∀ arg ∈ n.args, WellFormed arg) (closed : ∀ arg ∈ n.args, ∀ name ∈ arg.assembly, ']' ∉ name.toList) :
      WellFormed n

theorem WellFormed.assembly {n : TypeName} (h : n.WellFormed) : ∀ name ∈ n.assembly, IsTrimmed name := by
  cases h with
  | intro _ _ assembly _ _ => exact assembly

/-! ## Letters and paths -/

theorem spell_map {f : Char → Letter} (hf : ∀ c, (f c).char = c) (s : String) : spell (s.toList.map f) = s := by
  have hid : s.toList.map (fun c => (f c).char) = s.toList := by simp [hf]
  rw [spell, List.map_map]
  exact (congrArg String.ofList hid).trans String.ofList_toList

theorem guarded_map {f : Char → Letter} (hf : ∀ c, (f c).escaped = false → isPlain (f c).char = true) (cs : List Char) :
    Guarded (cs.map f) := by
  intro l hl he
  obtain ⟨c, -, rfl⟩ := List.mem_map.1 hl
  exact hf c he

theorem isName_nameLetters {name : String} (h : IsSimpleName name) : IsName (name.toList.map nameLetter) := by
  refine ⟨guarded_map (fun c he => ?_) _, by simpa using h.nonempty, ?_⟩
  · simp only [nameLetter, Bool.or_eq_false_iff, Bool.not_eq_false'] at he
    exact he.1
  · intro l hl
    rw [List.getLast?_map, Option.mem_def] at hl
    obtain ⟨c, hc, rfl⟩ := Option.map_eq_some_iff.1 hl
    exact h.ending c hc

theorem wellFormed_path {n : TypeName} (h : ∀ name ∈ n.top :: n.nested, IsSimpleName name) : n.path.WellFormed where
  space := guarded_map (fun c he => by simpa [spaceLetter] using he) _
  top := isName_nameLetters (h n.top List.mem_cons_self)
  dots := by
    intro l hl hdot
    obtain ⟨c, -, rfl⟩ := List.mem_map.1 hl
    have hc : c = '.' := hdot
    simp [nameLetter, hc]
  nested := by
    intro ls hl
    obtain ⟨name, hname, rfl⟩ := List.mem_map.1 hl
    exact isName_nameLetters (h name (List.mem_cons_of_mem _ hname))

theorem path_names (n : TypeName) :
    spell n.path.space = n.space ∧ spell n.path.top = n.top ∧ n.path.nested.map spell = n.nested := by
  refine ⟨spell_map (fun _ => rfl) _, spell_map (fun _ => rfl) _, ?_⟩
  have hid : ∀ name ∈ n.nested, spell (name.toList.map nameLetter) = name := fun name _ => spell_map (fun _ => rfl) name
  rw [path, List.map_map]
  exact (List.map_congr_left hid).trans (List.map_id _)

/-! ## Decorations -/

/-- what may follow a whole type name: nothing, a comma or a closing bracket -/
def Closes (rest : List Char) : Prop := ∀ c ∈ rest.head?, c = ',' ∨ c = ']'

theorem decorations_closes {rest : List Char} (h : Closes rest) : decorations none rest = .ok ([], rest) := by
  cases rest with
  | nil => rfl
  | cons c rest => rcases h c rfl with rfl | rfl <;> simp [decorations]

/-- each comma in brackets that are open is one more dimension -/
theorem decorations_commas (rank : UInt32) (count : Nat) (rest : List Char) :
    decorations (some rank) (List.replicate count ',' ++ ']' :: rest) =
      (decorations none rest).map fun p => (.ofRank (rank + UInt32.ofNat count) :: p.1, p.2) := by
  induction count generalizing rank with
  | zero => simp [decorations]
  | succ count ih =>
    have hrank : rank + 1 + UInt32.ofNat count = rank + UInt32.ofNat (count + 1) := by
      rw [UInt32.ofNat_add, UInt32.add_assoc, UInt32.add_comm 1]
      rfl
    rw [List.replicate_succ, List.cons_append, decorations]
    simp only [if_true]
    rw [ih, hrank]

theorem decorations_text {s : Suffix} (h : ∀ rank, s = .array rank → 2 ≤ rank) (rest : List Char) :
    decorations none (s.text ++ rest) = (decorations none rest).map fun p => (s :: p.1, p.2) := by
  cases s with
  | pointer => simp [Suffix.text, decorations]
  | byRef => simp [Suffix.text, decorations]
  | vector => simp [Suffix.text, decorations, Suffix.ofRank]
  | array rank =>
    have hle : 2 ≤ rank.toNat := UInt32.le_iff_toNat_le.1 (h rank rfl)
    have hrank : 1 + UInt32.ofNat (rank.toNat - 1) = rank := by
      apply UInt32.toNat_inj.1
      have := rank.toNat_lt
      simp only [UInt32.toNat_add, UInt32.toNat_ofNat', UInt32.reduceToNat]
      omega
    have hne : rank ≠ 1 := by
      rintro rfl
      exact absurd hle (by decide)
    have hopen : decorations none (Suffix.text (.array rank) ++ rest) =
        decorations (some 1) (List.replicate (rank.toNat - 1) ',' ++ ']' :: rest) := by
      simp [Suffix.text, decorations]
    rw [hopen, decorations_commas, hrank, Suffix.ofRank, if_neg hne]

theorem suffixList_print {suffixes : List Suffix} (h : ∀ rank, .array rank ∈ suffixes → 2 ≤ rank) {rest : List Char}
    (hr : Closes rest) : suffixList (suffixes.flatMap Suffix.text ++ rest) = .ok (suffixes, rest) := by
  unfold suffixList
  induction suffixes with
  | nil => exact decorations_closes hr
  | cons s suffixes ih =>
    have ih' := ih fun rank hrank => h rank (List.mem_cons_of_mem s hrank)
    rw [List.flatMap_cons, List.append_assoc,
      decorations_text (fun rank he => h rank (he ▸ List.mem_cons_self)), ih']
    rfl

/-! ## Arguments -/

theorem printSpec_eq (n : TypeName) :
    printSpec n = n.path.text ++ ((if n.args.isEmpty then [] else '[' :: printArgs n.args) ++
      n.suffixes.flatMap Suffix.text) := by
  cases n
  rw [printSpec]

theorem with_assembly (n : TypeName) : n = { { n with assembly := none } with assembly := n.assembly } := by
  cases n
  rfl

theorem closes_qualification (assembly : Option String) (rest : List Char) (h : Closes rest) :
    Closes (Path.qualification assembly ++ rest) := by
  cases assembly with
  | none => exact h
  | some name => exact fun c hc => by cases hc; exact .inl rfl

/-- an argument in brackets of its own is read back together with its assembly -/
theorem readsArg_print (rest : List Char) {arg : TypeName}
    (hspec : ∀ r, Closes r → ReadsType (printSpec arg ++ r) { arg with assembly := none } r)
    (ha : ∀ name ∈ arg.assembly, IsTrimmed name) (hclosed : ∀ name ∈ arg.assembly, ']' ∉ name.toList) :
    ReadsArg ('[' :: (printSpec arg ++ (Path.qualification arg.assembly ++ ']' :: rest))) arg rest := by
  have hbracket : Closes (']' :: rest) := fun c hc => by cases hc; exact .inr rfl
  have hspec' := hspec _ (closes_qualification arg.assembly (']' :: rest) hbracket)
  have hqualifier := Path.qualifier_qualification ha true (']' :: rest) rfl fun _ => hclosed
  unfold ReadsArg
  rw [if_pos (show (trimStart ('[' :: _)).head? = some '[' from rfl)]
  exact ⟨_, _, arg.assembly, _, hspec', hqualifier, rfl, with_assembly arg⟩

theorem readsArgs_print {args : List TypeName} (hne : args ≠ [])
    (hspec : ∀ arg ∈ args, ∀ r, Closes r → ReadsType (printSpec arg ++ r) { arg with assembly := none } r)
    (ha : ∀ arg ∈ args, ∀ name ∈ arg.assembly, IsTrimmed name)
    (hclosed : ∀ arg ∈ args, ∀ name ∈ arg.assembly, ']' ∉ name.toList) (rest : List Char) :
    ReadsArgs (printArgs args ++ rest) args rest := by
  induction args with
  | nil => exact absurd rfl hne
  | cons arg args ih =>
    have harg := fun r => readsArg_print r (hspec arg List.mem_cons_self) (ha arg List.mem_cons_self)
      (hclosed arg List.mem_cons_self)
    rw [printArgs, readsArgs_iff]
    by_cases hargs : args = []
    · subst hargs
      refine ⟨arg, ']' :: rest, ?_, .inr ⟨rfl, rfl, rfl⟩⟩
      simpa [printArgs] using harg (']' :: rest)
    · have hmore := ih hargs (fun a h => hspec a (List.mem_cons_of_mem _ h)) (fun a h => ha a (List.mem_cons_of_mem _ h))
        fun a h => hclosed a (List.mem_cons_of_mem _ h)
      refine ⟨arg, ',' :: (printArgs args ++ rest), ?_, .inl ⟨rfl, args, hmore, rfl⟩⟩
      simpa [hargs] using harg (',' :: (printArgs args ++ rest))

/-! ## Whole names -/

theorem opensArguments_suffixes (suffixes : List Suffix) (hranks : ∀ rank, .array rank ∈ suffixes → 2 ≤ rank)
    {rest : List Char} (h : Closes rest) : opensArguments (suffixes.flatMap Suffix.text ++ rest) = false := by
  cases suffixes with
  | nil =>
    cases rest with
    | nil => rfl
    | cons c rest => rcases h c rfl with rfl | rfl <;> rfl
  | cons s suffixes =>
    cases s with
    | array rank =>
      have hle : 2 ≤ rank.toNat := UInt32.le_iff_toNat_le.1 (hranks rank List.mem_cons_self)
      obtain ⟨count, hcount⟩ : ∃ count, rank.toNat - 1 = count + 1 := ⟨rank.toNat - 2, by omega⟩
      simp [Suffix.text, hcount, List.replicate_succ, opensArguments]
    | _ => rfl

theorem ends_suffixes (suffixes : List Suffix) {rest : List Char} (h : Closes rest) :
    ∀ c ∈ (suffixes.flatMap Suffix.text ++ rest).head?, isDelimiter c = true ∧ c ≠ '+' := by
  cases suffixes with
  | nil =>
    intro c hc
    rcases h c hc with rfl | rfl <;> decide
  | cons s suffixes =>
    cases s <;> exact fun c hc => by cases hc; decide

/-- what is well formed is read back from its text, whatever closes it -/
theorem WellFormed.reads {n : TypeName} (h : n.WellFormed) :
    ∀ rest, Closes rest → ReadsType (printSpec n ++ rest) { n with assembly := none } rest := by
  induction h with
  | @intro n names ranks assembly args closed ih =>
    intro rest hrest
    have hsuffix := suffixList_print ranks hrest
    obtain ⟨hspace, htop, hnested⟩ := path_names n
    rw [printSpec_eq, List.append_assoc, List.append_assoc]
    by_cases hargs : n.args = []
    · have hends := ends_suffixes n.suffixes hrest
      have hafter : ReadsArgsAfter (n.suffixes.flatMap Suffix.text ++ rest) n.args
          (n.suffixes.flatMap Suffix.text ++ rest) := by
        rw [ReadsArgsAfter, opensArguments_suffixes n.suffixes ranks hrest]
        exact ⟨hargs, rfl⟩
      have hread := Path.readsType_text (wellFormed_path names) (fun c hc => (hends c hc).1)
        (fun hc => (hends '+' hc).2 rfl) hafter hsuffix
      simpa [hargs, hspace, htop, hnested] using hread
    · have hread := readsArgs_print hargs ih (fun arg ha => (args arg ha).assembly) closed
        (n.suffixes.flatMap Suffix.text ++ rest)
      have hafter : ReadsArgsAfter ('[' :: (printArgs n.args ++ (n.suffixes.flatMap Suffix.text ++ rest))) n.args
          (n.suffixes.flatMap Suffix.text ++ rest) := by
        obtain ⟨arg, more, hcons⟩ := List.exists_cons_of_ne_nil hargs
        rw [ReadsArgsAfter, if_pos (by rw [hcons, printArgs]; rfl)]
        exact hread
      have hread := Path.readsType_text (wellFormed_path names) (fun c hc => by cases hc; rfl) (by simp) hafter hsuffix
      simpa [hargs, hspace, htop, hnested] using hread

/-- **What is well formed is read back from its canonical text.** -/
theorem WellFormed.parse_print {n : TypeName} (h : n.WellFormed) : parse n.print = .ok n := by
  have hcloses := closes_qualification n.assembly [] nofun
  have hqualifier := Path.qualifier_qualification h.assembly false [] rfl nofun
  rw [List.append_nil] at hcloses hqualifier
  rw [parse_eq_ok_iff, print, String.toList_ofList, parseChars_eq_ok_iff]
  exact ⟨_, _, n.assembly, h.reads _ hcloses, hqualifier, with_assembly n⟩

end FrameSymbols.TypeName
