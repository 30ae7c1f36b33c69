/-
Names with a backslash before every character.

A backslash keeps a character from ending a name, from ending a namespace and from being passed over as a blank before a
name (`splitSpace_shielded`, `trimStart_shielded`). It does not keep blanks at the end of a name, which are taken off
after the escapes have been read (`simpleName_shielded`). So the names come back exactly if none of them ends in a blank,
and a name of nothing but blanks is reported as an empty one (`escape_keeps_all_but_final_blanks`).
-/
import FrameSymbols.Proofs.TypeName.Accepted

namespace FrameSymbols.TypeName

open Text

/-! ## Letters -/

/-- the letters of a name, all of them escaped -/
def shielded (name : String) : List Letter := name.toList.map fun c => ⟨c, true⟩

/-- what is read of a name whose letters are all escaped: all of it but the blanks at its end -/
def kept (name : String) : String := String.ofList (trimEnd name.toList)

theorem guarded_shielded (name : String) : Guarded (shielded name) :=
  guarded_map (fun _ he => by cases he) _

theorem write_shielded (name : String) : write (shielded name) = name.toList.flatMap fun c => ['\\', c] := by
  unfold shielded
  induction name.toList with
  | nil => rfl
  | cons c cs ih => rw [List.map_cons, write, if_pos rfl, ih]; rfl

theorem length_write_shielded (name : String) : (write (shielded name)).length = 2 * name.length := by
  rw [write_shielded, List.length_flatMap, ← String.length_toList]
  simp [Nat.mul_comm]

theorem head_write_shielded {name : String} (hne : name ≠ "") (rest : List Char) :
    (write (shielded name) ++ rest).head? = some '\\' := by
  obtain ⟨c, cs, hcons⟩ := List.exists_cons_of_ne_nil (show name.toList ≠ [] by simpa using hne)
  rw [write_shielded, hcons]
  rfl

theorem kept_eq_self_iff {name : String} : kept name = name ↔ ∀ c ∈ name.toList.getLast?, isBlank c = false := by
  constructor
  · intro h
    have hends := ending_dropWhileEnd isBlank name.toList
    have hsame : trimEnd name.toList = name.toList := by rw [← String.toList_ofList (l := trimEnd _)]; exact congrArg _ h
    rwa [← trimEnd, hsame] at hends
  · intro h
    rw [kept, trimEnd, dropWhileEnd_eq_self h, String.ofList_toList]

/-! ## Names -/

theorem dropWhileEnd_shielded (name : String) :
    dropWhileEnd (fun l => isBlank l.char) (shielded name) = shielded (kept name) := by
  rw [shielded, shielded, kept, String.toList_ofList, trimEnd, dropWhileEnd, dropWhileEnd, ← List.map_reverse,
    List.dropWhile_map, List.map_reverse]
  rfl

/-- the blanks at the end of a name are lost, escaped or not -/
theorem simpleName_shielded (name : String) {rest : List Char} (hr : Ends rest) :
    simpleName (write (shielded name) ++ rest) =
      if kept name = "" then .error ⟨.emptyName, write (shielded name) ++ rest⟩ else .ok (shielded (kept name), rest) := by
  have hempty : shielded (kept name) = [] ↔ kept name = "" := by simp [shielded]
  rw [simpleName_guarded (guarded_shielded name) hr, dropWhileEnd_shielded]
  simp only [hempty]

theorem trimStart_shielded {name : String} (hne : name ≠ "") (rest : List Char) :
    trimStart (write (shielded name) ++ rest) = write (shielded name) ++ rest := by
  obtain ⟨more, hmore⟩ := List.head?_eq_some_iff.1 (head_write_shielded hne rest)
  rw [hmore, trimStart, List.dropWhile_cons, show isBlank '\\' = false by decide]
  rfl

/-- an escaped dot ends no namespace -/
theorem splitSpace_shielded (name : String) : splitSpace (shielded name) = ("", name) := by
  have hdots : (shielded name).reverse.dropWhile (!·.isDot) = [] := by
    rw [List.dropWhile_eq_nil_iff]
    intro l hl
    obtain ⟨c, -, rfl⟩ := List.mem_map.1 (List.mem_reverse.1 hl)
    simp [Letter.isDot]
  rw [Path.splitSpace_of_no_dot hdots, shielded, spell_map fun _ => rfl]

theorem ends_shielded (names : List String) : Ends (writeNested (names.map shielded)) := by
  have h : Ends (writeNested (names.map shielded) ++ []) := ends_writeNested _ nofun
  rwa [List.append_nil] at h

theorem nestedNames_shielded {names : List String} (h : ∀ name ∈ names, kept name ≠ "") :
    nestedNames (writeNested (names.map shielded)) = .ok (names.map kept, []) := by
  induction names with
  | nil => exact nestedNames_of_head nofun
  | cons name more ih =>
    rw [List.map_cons, writeNested, List.cons_append, nestedNames_plus, simpleName_shielded name (ends_shielded more),
      if_neg (h name List.mem_cons_self)]
    simp only [bind, Except.bind, ih fun n hn => h n (List.mem_cons_of_mem name hn)]
    rw [shielded, spell_map fun _ => rfl]
    rfl

/-- the first name of nothing but blanks is reported where it starts -/
theorem nestedNames_shielded_blank {before : List String} (h : ∀ name ∈ before, kept name ≠ "") {name : String}
    (hblank : kept name = "") (after : List String) :
    nestedNames (writeNested ((before ++ name :: after).map shielded)) =
      .error ⟨.emptyName, write (shielded name) ++ writeNested (after.map shielded)⟩ := by
  induction before with
  | nil =>
    rw [List.nil_append, List.map_cons, writeNested, List.cons_append, nestedNames_plus,
      simpleName_shielded name (ends_shielded after), if_pos hblank]
    rfl
  | cons first before ih =>
    rw [List.cons_append, List.map_cons, writeNested, List.cons_append, nestedNames_plus,
      simpleName_shielded first (ends_shielded _), if_neg (h first List.mem_cons_self)]
    simp only [bind, Except.bind, ih fun n hn => h n (List.mem_cons_of_mem first hn)]

/-! ## Texts -/

/-- names with a backslash before every character, joined by plus signs -/
def escapeAll (names : List String) : String :=
  String.ofList (['+'].intercalate (names.map fun name => name.toList.flatMap fun c => ['\\', c]))

theorem toList_escapeAll (first : String) (more : List String) :
    (escapeAll (first :: more)).toList = write (shielded first) ++ writeNested (more.map shielded) := by
  rw [escapeAll, String.toList_ofList, List.map_cons, ← write_shielded]
  induction more generalizing first with
  | nil => simp [writeNested]
  | cons second more ih =>
    rw [List.map_cons, List.intercalate_cons_cons, ← write_shielded, ih second]
    simp [writeNested]

theorem readType_shielded {first : String} {more : List String} (hfirst : first ≠ "")
    (h : ∀ name ∈ first :: more, kept name ≠ "") :
    readType (write (shielded first) ++ writeNested (more.map shielded)) =
      .ok (⟨"", kept first, more.map kept, [], [], none⟩, []) := by
  have hkept := h first List.mem_cons_self
  rw [readType_eq, trimStart_shielded hfirst, simpleName_shielded first (ends_shielded more), if_neg hkept]
  simp only [bind, Except.bind, nestedNames_shielded fun n hn => h n (List.mem_cons_of_mem first hn),
    splitSpace_shielded, if_neg hkept]
  rfl

theorem readType_shielded_blank {before : List String} (h : ∀ name ∈ before, kept name ≠ "") {first name : String}
    {more after : List String} (hnames : first :: more = before ++ name :: after) (hfirst : first ≠ "")
    (hblank : kept name = "") :
    readType (write (shielded first) ++ writeNested (more.map shielded)) =
      .error ⟨.emptyName, write (shielded name) ++ writeNested (after.map shielded)⟩ := by
  rw [readType_eq, trimStart_shielded hfirst, simpleName_shielded first (ends_shielded more)]
  cases before with
  | nil =>
    cases hnames
    rw [if_pos hblank]
    rfl
  | cons _ before =>
    rw [List.cons_append, List.cons.injEq] at hnames
    obtain ⟨rfl, rfl⟩ := hnames
    rw [if_neg (h first List.mem_cons_self)]
    simp only [bind, Except.bind, nestedNames_shielded_blank (fun n hn => h n (List.mem_cons_of_mem first hn)) hblank after]

/-- the number of characters of the names and the plus signs before a name -/
def offsetBehind : List String → Nat
  | [] => 0
  | name :: before => 2 * name.length + 1 + offsetBehind before

theorem length_writeNested_shielded (names : List String) :
    (writeNested (names.map shielded)).length = offsetBehind names := by
  induction names with
  | nil => rfl
  | cons name names ih =>
    rw [List.map_cons, writeNested, List.length_append, List.length_cons, length_write_shielded, ih, offsetBehind]

theorem offsetBehind_append (before after : List String) :
    offsetBehind (before ++ after) = offsetBehind before + offsetBehind after := by
  induction before with
  | nil => rw [List.nil_append, offsetBehind, Nat.zero_add]
  | cons name before ih => simp only [List.cons_append, offsetBehind, ih, Nat.add_assoc]

theorem length_escapeAll {first name : String} {more before after : List String}
    (hnames : first :: more = before ++ name :: after) :
    (escapeAll (first :: more)).length =
      offsetBehind before + (write (shielded name) ++ writeNested (after.map shielded)).length := by
  have hwhole : offsetBehind (first :: more) = offsetBehind before + offsetBehind (name :: after) := by
    rw [hnames, offsetBehind_append]
  rw [← String.length_toList, toList_escapeAll, List.length_append, List.length_append, length_write_shielded,
    length_write_shielded, length_writeNested_shielded, length_writeNested_shielded]
  simp only [offsetBehind] at hwhole ⊢
  omega

/-! ## What is read -/

theorem parse_escapeAll {first : String} {more : List String} (hfirst : first ≠ "")
    (h : ∀ name ∈ first :: more, kept name ≠ "") :
    parse (escapeAll (first :: more)) = .ok ⟨"", kept first, more.map kept, [], [], none⟩ := by
  rw [parse_eq_ok_iff, parseChars_eq, toList_escapeAll, readType_shielded hfirst h]
  rfl

theorem parse_escapeAll_blank {before : List String} (h : ∀ name ∈ before, kept name ≠ "") {first name : String}
    {more after : List String} (hnames : first :: more = before ++ name :: after) (hfirst : first ≠ "") (hname : name ≠ "")
    (hblank : kept name = "") :
    parse (escapeAll (first :: more)) =
      .error (.malformed (.typeName (escapeAll (first :: more)) ⟨.emptyName, offsetBehind before, some '\\'⟩)) := by
  unfold parse
  rw [parseChars_eq, toList_escapeAll, readType_shielded_blank h hnames hfirst hblank]
  simp only [bind, Except.bind, Except.mapError, Stop.fault, head_write_shielded hname, length_escapeAll hnames,
    Nat.add_sub_cancel]

/-- **A backslash preserves every character but the blanks at the end of a name.** Names with a backslash before every
character come back, in no namespace and with nothing behind them, exactly if none of them ends in a blank. Of the others
the blanks at the end are lost, and the first one that has nothing but blanks is reported as an empty name. -/
theorem escape_keeps_all_but_final_blanks (first : String) (more : List String)
    (hne : ∀ name ∈ first :: more, name ≠ "") :
    (parse (escapeAll (first :: more)) = .ok ⟨"", first, more, [], [], none⟩ ↔
      ∀ name ∈ first :: more, ∀ c ∈ name.toList.getLast?, isBlank c = false) ∧
    ((∀ name ∈ first :: more, kept name ≠ "") →
      parse (escapeAll (first :: more)) = .ok ⟨"", kept first, more.map kept, [], [], none⟩) ∧
    ∀ before name after, first :: more = before ++ name :: after → (∀ n ∈ before, kept n ≠ "") → kept name = "" →
      parse (escapeAll (first :: more)) =
        .error (.malformed (.typeName (escapeAll (first :: more)) ⟨.emptyName, offsetBehind before, some '\\'⟩)) := by
  have hfirst := hne first List.mem_cons_self
  have hread : (∀ name ∈ first :: more, kept name ≠ "") →
      parse (escapeAll (first :: more)) = .ok ⟨"", kept first, more.map kept, [], [], none⟩ := parse_escapeAll hfirst
  refine ⟨⟨fun h name hn => (names_of_parse h name hn).ending, fun h => ?_⟩, hread, ?_⟩
  · have hsame : ∀ name ∈ first :: more, kept name = name := fun name hn => kept_eq_self_iff.2 (h name hn)
    have hmore : more.map kept = more :=
      (List.map_congr_left fun name hn => hsame name (List.mem_cons_of_mem first hn)).trans (List.map_id more)
    rw [hread fun name hn => by rw [hsame name hn]; exact hne name hn, hsame first List.mem_cons_self, hmore]
  · intro before name after hnames h hblank
    exact parse_escapeAll_blank h hnames hfirst (hne name (by rw [hnames]; simp)) hblank

/-- a blank at the start of a name, a dot and a plus sign come back; a blank at the end is lost, and a name of one blank is
empty -/
theorem escape_keeps_all_but_final_blanks_samples :
    parse "\\ \\.\\a+\\+" = .ok ⟨"", " .a", ["+"], [], [], none⟩ ∧
      parse "\\A\\ " = .ok ⟨"", "A", [], [], [], none⟩ ∧
      parse "\\A+\\ " = .error (.malformed (.typeName "\\A+\\ " ⟨.emptyName, 3, some '\\'⟩)) := by
  have hback := (escape_keeps_all_but_final_blanks " .a" ["+"] (by decide)).1.2 (by simp [isBlank, blankRanges])
  have hlost := (escape_keeps_all_but_final_blanks "A " [] (by decide)).2.1 (by decide +kernel)
  have hempty := (escape_keeps_all_but_final_blanks "A" [" "] (by decide)).2.2 ["A"] " " [] rfl
    (by decide +kernel) (by decide +kernel)
  exact ⟨hback, hlost, hempty⟩

end FrameSymbols.TypeName
