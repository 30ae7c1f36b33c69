/-
Names that are read back as they were spelled.

A spelling is a list of letters, each of them escaped or not. It is read back letter by letter when what is special or
blank is escaped (`letters_write`), and as a name when it is not empty and does not end in a blank
(`simpleName_write`). A path of such names, with a namespace before the first one, is read as its parts, whatever
arguments and decorations follow (`readsType_text`), and alone or with the name of an assembly it is parsed into them
(`parse_text`).
-/
import FrameSymbols.Proofs.TypeName.Reading
import Mathlib.Data.List.TakeWhile

namespace FrameSymbols.TypeName

open Text

/-! ## Letters -/

/-- a character that needs no backslash -/
def isPlain (c : Char) : Bool := !(c = '\\' || isDelimiter c || isBlank c)

/-- a dot that may end a namespace -/
def Letter.isDot (l : Letter) : Bool := l.char = '.' && !l.escaped

/-- the text of letters: a backslash before each that is escaped -/
def write : List Letter → List Char
  | [] => []
  | l :: ls => if l.escaped then '\\' :: l.char :: write ls else l.char :: write ls

/-- everything that needs a backslash has one -/
def Guarded (ls : List Letter) : Prop := ∀ l ∈ ls, l.escaped = false → isPlain l.char = true

instance (ls : List Letter) : Decidable (Guarded ls) := inferInstanceAs (Decidable (∀ l ∈ ls, _ → _))

/-- what may follow a name: nothing, or a delimiter -/
def Ends (rest : List Char) : Prop := ∀ c ∈ rest.head?, isDelimiter c = true

theorem letters_write {ls : List Letter} (h : Guarded ls) {rest : List Char} (hr : Ends rest) :
    letters (write ls ++ rest) = .ok (ls, rest) := by
  induction ls with
  | nil =>
    cases rest with
    | nil => rfl
    | cons c rest =>
      have hd : isDelimiter c = true := hr c rfl
      have hc : c ≠ '\\' := by rintro rfl; cases hd
      show letters (c :: rest) = _
      rw [letters.eq_def]
      simp only [if_neg hc, if_pos hd]
  | cons l ls ih =>
    have ih' := ih fun l' hl' => h l' (List.mem_cons_of_mem l hl')
    obtain ⟨c, escaped⟩ := l
    cases escaped with
    | true =>
      show letters ('\\' :: c :: (write ls ++ rest)) = _
      rw [letters, if_pos rfl]
      simp only [ih', Except.map]
    | false =>
      have hplain := h ⟨c, false⟩ List.mem_cons_self rfl
      simp only [isPlain, Bool.not_eq_true', Bool.or_eq_false_iff, decide_eq_false_iff_not] at hplain
      obtain ⟨⟨hc, hd⟩, -⟩ := hplain
      show letters (c :: (write ls ++ rest)) = _
      rw [letters.eq_def]
      simp only [if_neg hc, hd, Bool.false_eq_true, if_false, ih', Except.map]

/-! ## Names -/

/-- letters that make a name: guarded, at least one, and no blank at the end -/
structure IsName (ls : List Letter) : Prop where
  guarded : Guarded ls
  nonempty : ls ≠ []
  ending : ∀ l ∈ ls.getLast?, isBlank l.char = false

theorem dropWhileEnd_eq_self {α : Type} {p : α → Bool} {xs : List α} (h : ∀ x ∈ xs.getLast?, p x = false) :
    dropWhileEnd p xs = xs := by
  unfold dropWhileEnd
  cases hx : xs.reverse with
  | nil => simpa using hx
  | cons y ys =>
    have hy : p y = false := h y (by rw [← List.head?_reverse, hx]; rfl)
    rw [List.dropWhile_cons, hy, ← hx]
    simp

/-- a name is read without the blanks at its end, and nothing may not be left of it -/
theorem simpleName_guarded {ls : List Letter} (h : Guarded ls) {rest : List Char} (hr : Ends rest) :
    simpleName (write ls ++ rest) =
      if dropWhileEnd (fun l => isBlank l.char) ls = [] then .error ⟨.emptyName, write ls ++ rest⟩
      else .ok (dropWhileEnd (fun l => isBlank l.char) ls, rest) := by
  unfold simpleName
  rw [letters_write h hr]
  rfl

theorem simpleName_write {ls : List Letter} (h : IsName ls) {rest : List Char} (hr : Ends rest) :
    simpleName (write ls ++ rest) = .ok (ls, rest) := by
  rw [simpleName_guarded h.guarded hr, dropWhileEnd_eq_self h.ending, if_neg h.nonempty]

/-- the text of nested names, each after a plus sign -/
def writeNested : List (List Letter) → List Char
  | [] => []
  | ls :: more => '+' :: write ls ++ writeNested more

theorem ends_writeNested (names : List (List Letter)) {rest : List Char} (hr : Ends rest) :
    Ends (writeNested names ++ rest) := by
  cases names with
  | nil => exact hr
  | cons ls more => intro c hc; cases hc; rfl

theorem nestedNames_write {names : List (List Letter)} (h : ∀ ls ∈ names, IsName ls) {rest : List Char} (hr : Ends rest)
    (hplus : rest.head? ≠ some '+') : nestedNames (writeNested names ++ rest) = .ok (names.map spell, rest) := by
  induction names with
  | nil => exact nestedNames_of_head hplus
  | cons ls more ih =>
    have hs := simpleName_write (h ls List.mem_cons_self) (ends_writeNested more hr)
    have ih' := ih fun ls' hl' => h ls' (List.mem_cons_of_mem ls hl')
    rw [writeNested, List.append_assoc, List.cons_append, nestedNames_plus]
    exact bind_eq_ok_iff.2 ⟨_, hs, bind_eq_ok_iff.2 ⟨_, ih', rfl⟩⟩

/-! ## Paths -/

/-- a path: the letters of a namespace, of a top-level type, and of the types nested in it on the way in -/
structure Path where
  space : List Letter
  top : List Letter
  nested : List (List Letter)

namespace Path

/-- the first name of a path, with the namespace before its last plain dot -/
def head (p : Path) : List Letter := if p.space = [] then p.top else p.space ++ ⟨'.', false⟩ :: p.top

def text (p : Path) : List Char := write p.head ++ writeNested p.nested

/-- every name is one, and the name of the top-level type has no plain dot -/
structure WellFormed (p : Path) : Prop where
  space : Guarded p.space
  top : IsName p.top
  dots : ∀ l ∈ p.top, l.char = '.' → l.escaped = true
  nested : ∀ ls ∈ p.nested, IsName ls

/-- the parts of a path as a type name -/
def typeName (p : Path) (assembly : Option String) : TypeName :=
  ⟨spell p.space, spell p.top, p.nested.map spell, [], [], assembly⟩

variable {p : Path}

theorem isName_head (h : p.WellFormed) : IsName p.head := by
  unfold head
  split
  · exact h.top
  · refine ⟨?_, by simp, ?_⟩
    · intro l hl he
      rcases List.mem_append.1 hl with hl | hl
      · exact h.space l hl he
      · rcases List.mem_cons.1 hl with rfl | hl
        · rfl
        · exact h.top.guarded l hl he
    · rw [List.getLast?_append, List.getLast?_cons]
      cases hlast : p.top.getLast? with
      | none => exact absurd (List.getLast?_eq_none_iff.1 hlast) h.top.nonempty
      | some l => simpa using h.top.ending l hlast

theorem splitSpace_of_no_dot {ls : List Letter} (h : ls.reverse.dropWhile (!·.isDot) = []) :
    splitSpace ls = ("", spell ls) := by
  change List.dropWhile (fun l : Letter => !(l.char = '.' && !l.escaped)) ls.reverse = _ at h
  simp only [splitSpace, h]

theorem splitSpace_of_dot {ls before : List Letter} {dot l : Letter}
    (h : ls.reverse.dropWhile (!·.isDot) = dot :: l :: before) :
    splitSpace ls = (spell (l :: before).reverse, spell (ls.reverse.takeWhile (!·.isDot)).reverse) := by
  change List.dropWhile (fun l : Letter => !(l.char = '.' && !l.escaped)) ls.reverse = _ at h
  simp only [splitSpace, h]
  rfl

/-- the namespace is what stands before the last plain dot -/
theorem splitSpace_head (h : p.WellFormed) : splitSpace p.head = (spell p.space, spell p.top) := by
  have hdots : ∀ l ∈ p.top.reverse, (!l.isDot) = true := by
    intro l hl
    by_cases hc : l.char = '.'
    · simp [Letter.isDot, hc, h.dots l (List.mem_reverse.1 hl) hc]
    · simp [Letter.isDot, hc]
  unfold head
  by_cases hs : p.space = []
  · rw [if_pos hs, hs, splitSpace_of_no_dot (List.dropWhile_eq_nil_iff.2 hdots)]
    rfl
  · rw [if_neg hs]
    cases hrev : p.space.reverse with
    | nil => exact absurd (List.reverse_eq_nil_iff.1 hrev) hs
    | cons l before =>
      have hspace : p.space = (l :: before).reverse := by rw [← hrev, List.reverse_reverse]
      have hreverse : (p.space ++ ⟨'.', false⟩ :: p.top).reverse = p.top.reverse ++ ⟨'.', false⟩ :: l :: before := by
        simp [hrev]
      rw [splitSpace_of_dot (by rw [hreverse, List.dropWhile_append_of_pos hdots]; rfl), hreverse,
        List.takeWhile_append_of_pos hdots]
      simp [Letter.isDot, hspace]

theorem trimStart_write {ls : List Letter} (h : IsName ls) (rest : List Char) :
    trimStart (write ls ++ rest) = write ls ++ rest := by
  cases ls with
  | nil => exact absurd rfl h.nonempty
  | cons l ls =>
    have hstart : isBlank '\\' = false := by decide
    unfold write trimStart
    split
    · rw [List.cons_append, List.dropWhile_cons, hstart]
      rfl
    · next he =>
      have hplain := h.guarded l List.mem_cons_self (by simpa using he)
      simp only [isPlain, Bool.not_eq_true', Bool.or_eq_false_iff] at hplain
      rw [List.cons_append, List.dropWhile_cons, hplain.2]
      rfl

/-- a path is read as its parts, with the arguments and the decorations that follow it -/
theorem readsType_text (h : p.WellFormed) {r r' rest : List Char} {args : List TypeName} {suffixes : List Suffix}
    (hends : Ends r) (hplus : r.head? ≠ some '+') (hargs : ReadsArgsAfter r args r')
    (hsuffix : suffixList r' = .ok (suffixes, rest)) :
    ReadsType (p.text ++ r) ⟨spell p.space, spell p.top, p.nested.map spell, args, suffixes, none⟩ rest := by
  have hname := isName_head h
  have hhead : simpleName (trimStart (p.text ++ r)) = .ok (p.head, writeNested p.nested ++ r) := by
    rw [text, List.append_assoc, trimStart_write hname]
    exact simpleName_write hname (ends_writeNested _ hends)
  have htop : spell p.top ≠ "" := by simpa [spell] using h.top.nonempty
  refine readsType_iff.2 ⟨p.head, _, p.nested.map spell, r, args, r', suffixes, hhead, ?_, ?_, hargs, hsuffix, ?_⟩
  · exact nestedNames_write h.nested hends hplus
  · rw [splitSpace_head h]
    exact htop
  · rw [splitSpace_head h]

end Path

/-! ## Assemblies -/

/-- the name of an assembly as it is read: not empty, and no blanks around it -/
structure IsTrimmed (name : String) : Prop where
  nonempty : name ≠ ""
  starting : ∀ c ∈ name.toList.head?, isBlank c = false
  ending : ∀ c ∈ name.toList.getLast?, isBlank c = false

instance (name : String) : Decidable (IsTrimmed name) :=
  decidable_of_iff (name ≠ "" ∧ (name.toList.head?.all fun c => !isBlank c) = true ∧
    (name.toList.getLast?.all fun c => !isBlank c) = true)
    ⟨fun h => ⟨h.1, by simpa [Option.all_eq_true] using h.2.1, by simpa [Option.all_eq_true] using h.2.2⟩,
      fun h => ⟨h.1, by simpa [Option.all_eq_true] using h.2, by simpa [Option.all_eq_true] using h.3⟩⟩

theorem IsTrimmed.trim_eq {name : String} (h : IsTrimmed name) : trim name.toList = name.toList := by
  have hstart : trimStart name.toList = name.toList := by
    cases hn : name.toList with
    | nil => rfl
    | cons c cs =>
      have hc : isBlank c = false := h.starting c (by rw [hn]; rfl)
      rw [trimStart, List.dropWhile_cons, hc]
      rfl
  rw [trim, hstart]
  exact dropWhileEnd_eq_self h.ending

/-- a simple assembly name that can be told apart from what stands around it -/
structure IsAssembly (name : String) : Prop where
  nonempty : name ≠ ""
  oneName : ',' ∉ name.toList
  starting : ∀ c ∈ name.toList.head?, isBlank c = false
  ending : ∀ c ∈ name.toList.getLast?, isBlank c = false

theorem IsAssembly.trimmed {name : String} (h : IsAssembly name) : IsTrimmed name := ⟨h.nonempty, h.starting, h.ending⟩

/-- a simple name is its own simple form -/
theorem IsAssembly.beforeComma_eq {name : String} (h : IsAssembly name) : beforeComma name = name := by
  have htake : name.toList.takeWhile (· ≠ ',') = name.toList := by
    rw [List.takeWhile_eq_self_iff]
    intro c hc
    simpa using fun he : c = ',' => h.oneName (he ▸ hc)
  rw [beforeComma, htake, h.trimmed.trim_eq, String.ofList_toList]

namespace Path

variable {p : Path}

/-- what follows a path: nothing, or the name of an assembly -/
def qualification : Option String → List Char
  | none => []
  | some name => ',' :: ' ' :: name.toList

theorem trim_blank_cons (cs : List Char) : trim (' ' :: cs) = trim cs := by
  rw [trim, trimStart, List.dropWhile_cons, show isBlank ' ' = true by decide]
  rfl

/-- the name of an assembly is read back: up to the end, or in brackets up to the closing one -/
theorem qualifier_qualification {assembly : Option String} (h : ∀ name ∈ assembly, IsTrimmed name)
    (bracketed : Bool) (rest : List Char) (hrest : if bracketed then rest.head? = some ']' else rest = [])
    (hclosed : bracketed = true → ∀ name ∈ assembly, ']' ∉ name.toList) :
    qualifier bracketed (trimStart (qualification assembly ++ rest)) = .ok (assembly, rest) := by
  cases assembly with
  | none =>
    cases bracketed with
    | false =>
      rw [if_neg Bool.false_ne_true] at hrest
      subst hrest
      rfl
    | true =>
      rw [if_pos rfl] at hrest
      obtain ⟨more, rfl⟩ := List.head?_eq_some_iff.1 hrest
      rfl
  | some name =>
    have hname := h name rfl
    have htrim : trim (' ' :: name.toList) = name.toList := by rw [trim_blank_cons, hname.trim_eq]
    have hne : name.toList ≠ [] := by simpa using hname.nonempty
    have hstart : trimStart (qualification (some name) ++ rest) = ',' :: ' ' :: (name.toList ++ rest) := rfl
    rw [hstart]
    cases bracketed with
    | false =>
      rw [if_neg Bool.false_ne_true] at hrest
      subst hrest
      simp only [qualifier, if_true, Bool.false_eq_true, if_false, List.append_nil, htrim]
      rw [if_neg hne, String.ofList_toList]
    | true =>
      rw [if_pos rfl] at hrest
      obtain ⟨more, rfl⟩ := List.head?_eq_some_iff.1 hrest
      have hin : ∀ c ∈ ' ' :: name.toList, decide (c ≠ ']') = true := by
        intro c hc
        rcases List.mem_cons.1 hc with rfl | hc
        · rfl
        · simpa using fun he : c = ']' => hclosed rfl name rfl (he ▸ hc)
      have hcut : ' ' :: (name.toList ++ ']' :: more) = (' ' :: name.toList) ++ ']' :: more := rfl
      simp only [qualifier, if_true]
      rw [hcut, List.takeWhile_append_of_pos hin, List.dropWhile_append_of_pos hin]
      simp only [List.takeWhile_cons, List.dropWhile_cons, ne_eq, not_true_eq_false, decide_false, Bool.false_eq_true,
        if_false, List.append_nil, htrim]
      rw [if_neg hne, String.ofList_toList]

/-- **A path is parsed into its parts**, with or without an assembly. -/
theorem parse_text (h : p.WellFormed) {assembly : Option String} (ha : ∀ name ∈ assembly, IsAssembly name) :
    parse (String.ofList (p.text ++ qualification assembly)) = .ok (p.typeName assembly) := by
  have hends : Ends (qualification assembly) := by
    intro c hc
    cases assembly <;> cases hc
    rfl
  have hplus : (qualification assembly).head? ≠ some '+' := by cases assembly <;> simp [qualification]
  have hargs : ReadsArgsAfter (qualification assembly) [] (qualification assembly) := by
    cases assembly <;> exact ⟨rfl, rfl⟩
  have hsuffix : suffixList (qualification assembly) = .ok ([], qualification assembly) := by
    cases assembly <;> simp [qualification, suffixList, decorations]
  have hqualifier := qualifier_qualification (fun name hn => (ha name hn).trimmed) false [] rfl
    fun h => absurd h Bool.false_ne_true
  rw [List.append_nil] at hqualifier
  rw [parse_eq_ok_iff, String.toList_ofList, parseChars_eq_ok_iff]
  exact ⟨_, _, assembly, readsType_text h hends hplus hargs hsuffix, hqualifier, rfl⟩

end Path

end FrameSymbols.TypeName
