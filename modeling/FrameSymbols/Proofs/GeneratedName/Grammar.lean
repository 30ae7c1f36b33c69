/-
Which names are generated.

As long as the scan for the closing bracket goes on some bracket is open (`open_of_scanned`), so the count never falls
below what it is counted down from. A name is generated exactly when it is put together from the parts of a generated
name, and it has these parts only (`parse?_eq_some_iff`). The offsets of its brackets are boundaries of characters,
whatever stands inside and behind them (`isSlice_of_append`). `generated_names_exact` puts this together.
-/
import FrameSymbols.Proofs.GeneratedName

namespace FrameSymbols

namespace GeneratedName

theorem Kind.ofChar?_eq_some_iff {c : Char} {k : Kind} : ofChar? c = some k ↔ c = k.char := by
  constructor
  · intro h
    obtain ⟨entry, hfind, rfl⟩ := Option.map_eq_some_iff.1 h
    have hchar : ∀ entry ∈ table, entry.2.1 = entry.1.char := by decide
    have hc : entry.2.1 = c := by simpa using List.find?_some hfind
    rw [← hc]
    exact hchar entry (List.mem_of_find?_eq_some hfind)
  · rintro rfl
    exact ofChar?_char k

/-! ## Open brackets -/

/-- where no closing bracket is found, no start of the text closes one too many -/
theorem count_le_of_splitAtClose_eq_none {depth : Nat} {cs read : List Char} (h : splitAtClose depth cs = none)
    (hr : read <+: cs) : read.count '>' ≤ depth + read.count '<' := by
  induction cs generalizing depth read with
  | nil =>
    rw [List.prefix_nil.1 hr]
    exact Nat.zero_le _
  | cons c cs ih =>
    rcases List.prefix_cons_iff.1 hr with rfl | ⟨more, rfl, hmore⟩
    · exact Nat.zero_le _
    · rcases depth_cases depth c with ⟨rfl, rfl⟩ | ⟨next, hn⟩
      · cases h
      · rw [splitAtClose_cons hn, Option.map_eq_none_iff] at h
        have := ih h hmore
        simp only [List.count_cons, beq_iff_eq]
        omega

/-- what is read of a text behind an opening bracket before its closing bracket: all of it, if there is none -/
def scanned (body : List Char) : List Char := (splitAtClose 0 body).elim body (·.1)

/-- the number of brackets that are open behind an opening bracket and a text -/
def openBehind (read : List Char) : Int := 1 + read.count '<' - read.count '>'

/-- behind whatever the scan has read, some bracket is open, and the scan goes on with the others counted -/
theorem open_of_scanned {body read more : List Char} (hbody : body = read ++ more) (h : read <+: scanned body) :
    ∃ depth : Nat, openBehind read = depth + 1 ∧
      splitAtClose 0 body = (splitAtClose depth more).map fun p => (read ++ p.1, p.2) := by
  have hcount : ∀ before, before <+: read → before.count '>' ≤ 0 + before.count '<' := by
    intro before hb
    have hs := hb.trans h
    unfold scanned at hs
    cases hsplit : splitAtClose 0 body with
    | none =>
      rw [hsplit] at hs
      exact count_le_of_splitAtClose_eq_none hsplit hs
    | some p =>
      rw [hsplit] at hs
      exact (balancedFrom_of_splitAtClose hsplit).1 before ((List.mem_inits _ _).2 hs)
  have hle := hcount read (List.prefix_refl read)
  refine ⟨read.count '<' - read.count '>', ?_, ?_⟩
  · unfold openBehind
    omega
  · rw [hbody]
    exact splitAtClose_append more hcount (by omega)

/-! ## Generated names and their parts -/

/-- a name is the marker or nothing, a balanced source name in brackets, the character of a kind, and a rest -/
structure ConsistsOf (name before source : List Char) (kind : Kind) (rest : List Char) : Prop where
  mark : before = [] ∨ before = marker
  balanced : Balanced source
  text : name = before ++ '<' :: source ++ '>' :: kind.char :: rest

def before (g : GeneratedName) : List Char := if g.marked then marker else []

theorem before_cases (g : GeneratedName) : g.before = [] ∨ g.before = marker := by
  unfold before
  split
  · exact .inr rfl
  · exact .inl rfl

theorem parseBody_eq_some_iff {marked : Bool} {body : List Char} {g : GeneratedName} :
    parseBody marked body = some g ↔
      g.marked = marked ∧ Balanced g.source ∧ body = g.source ++ '>' :: g.kind.char :: g.rest := by
  constructor
  · intro h
    obtain ⟨⟨source, after⟩, hs, h⟩ := Option.bind_eq_some_iff.1 h
    obtain ⟨c, hc, h⟩ := Option.bind_eq_some_iff.1 h
    obtain ⟨kind, hk, h⟩ := Option.bind_eq_some_iff.1 h
    cases h
    obtain ⟨hb, rfl⟩ := splitAtClose_eq_some_iff.1 hs
    obtain ⟨rest, rfl⟩ := List.head?_eq_some_iff.1 hc
    rw [Kind.ofChar?_eq_some_iff.1 hk]
    exact ⟨rfl, hb, rfl⟩
  · rintro ⟨rfl, hb, rfl⟩
    unfold parseBody
    rw [splitAtClose_of_balanced hb]
    simp

/-- a name is generated exactly when it consists of the parts of a generated name -/
theorem parse?_eq_some_iff {name : List Char} {g : GeneratedName} :
    parse? name = some g ↔ ConsistsOf name g.before g.source g.kind g.rest := by
  constructor
  · intro h
    unfold parse? at h
    split at h
    · obtain ⟨hm, hb, rfl⟩ := parseBody_eq_some_iff.1 h
      refine ⟨g.before_cases, hb, ?_⟩
      rw [before, hm]
      rfl
    · obtain ⟨hm, hb, rfl⟩ := parseBody_eq_some_iff.1 h
      refine ⟨g.before_cases, hb, ?_⟩
      rw [before, hm]
      rfl
    · cases h
  · rintro ⟨-, hb, rfl⟩
    have hbody := fun marked (hm : g.marked = marked) => parseBody_eq_some_iff.2 ⟨hm, hb, rfl⟩
    unfold before
    cases hm : g.marked with
    | true => simpa [parse?, marker] using hbody true hm
    | false => simpa [parse?] using hbody false hm

/-- the parts of a name are those that it is taken apart into -/
theorem ConsistsOf.parse {name before source rest : List Char} {kind : Kind}
    (h : ConsistsOf name before source kind rest) :
    ∃ g : GeneratedName, parse? name = some g ∧ g.before = before ∧ g.source = source ∧ g.kind = kind ∧
      g.rest = rest := by
  rcases h.mark with hm | hm
  · exact ⟨⟨false, source, kind, rest⟩, parse?_eq_some_iff.2 (by simpa [GeneratedName.before, hm] using h), hm.symm,
      rfl, rfl, rfl⟩
  · exact ⟨⟨true, source, kind, rest⟩, parse?_eq_some_iff.2 (by simpa [GeneratedName.before, hm] using h), hm.symm,
      rfl, rfl, rfl⟩

theorem ConsistsOf.unique {name before source rest before' source' rest' : List Char} {kind kind' : Kind}
    (h : ConsistsOf name before source kind rest) (h' : ConsistsOf name before' source' kind' rest') :
    before = before' ∧ source = source' ∧ kind = kind' ∧ rest = rest' := by
  obtain ⟨g, hg, rfl, rfl, rfl, rfl⟩ := h.parse
  obtain ⟨g', hg', rfl, rfl, rfl, rfl⟩ := h'.parse
  rw [hg, Option.some.injEq] at hg'
  subst hg'
  exact ⟨rfl, rfl, rfl, rfl⟩

/-! ## Offsets -/

theorem octets_append (cs more : List Char) : octets (cs ++ more) = octets cs + octets more := by
  induction cs with
  | nil => simp [octets]
  | cons c cs ih => simp [octets, ih, Nat.add_assoc]

theorem octets_eq (cs : List Char) : octets cs = (String.ofList cs).utf8ByteSize := by
  induction cs with
  | nil => rfl
  | cons c cs ih => rw [octets, ih, String.ofList_cons, String.utf8ByteSize_append, String.utf8ByteSize_singleton]

theorem octets_before (g : GeneratedName) : octets g.before = g.opening := by
  unfold before opening
  split <;> rfl

theorem closing_eq (g : GeneratedName) : g.closing = octets (g.before ++ '<' :: g.source) := by
  rw [octets_append, octets_before, octets, closing, Nat.add_assoc]
  rfl

/-- both offsets are boundaries of characters, and what stands between them is `part` -/
def IsSlice (name : String) (start stop : Nat) (part : List Char) : Prop :=
  ∃ (hstart : String.Pos.Raw.IsValid name ⟨start⟩) (hstop : String.Pos.Raw.IsValid name ⟨stop⟩),
    name.extract (name.pos ⟨start⟩ hstart) (name.pos ⟨stop⟩ hstop) = String.ofList part

/-- the offset behind some characters of a name is a boundary -/
theorem isValid_octets {name : String} {cs more : List Char} (h : name.toList = cs ++ more) :
    String.Pos.Raw.IsValid name ⟨octets cs⟩ := by
  refine String.Pos.Raw.isValid_iff_exists_append.2 ⟨.ofList cs, .ofList more, ?_, ?_⟩
  · rw [← String.ofList_append, ← h, String.ofList_toList]
  · rw [octets_eq]
    rfl

/-- a part of a name can be cut out at its offsets -/
theorem isSlice_of_append {name : String} (cs part more : List Char) (h : name.toList = cs ++ part ++ more)
    {start stop : Nat} (hstart : start = octets cs) (hstop : stop = octets (cs ++ part)) :
    IsSlice name start stop part := by
  subst hstart hstop
  refine ⟨isValid_octets (h.trans (List.append_assoc _ _ _)), isValid_octets h, ?_⟩
  have hbytes : name.toByteArray = (String.ofList cs).toByteArray ++
      ((String.ofList part).toByteArray ++ (String.ofList more).toByteArray) := by
    rw [← String.toByteArray_append, ← String.toByteArray_append, ← String.ofList_append, ← String.ofList_append,
      ← List.append_assoc, ← h, String.ofList_toList]
  have hmiddle := ByteArray.extract_append_size_add' (a := (String.ofList cs).toByteArray)
    (b := (String.ofList part).toByteArray ++ (String.ofList more).toByteArray) (i := 0) (j := octets part)
    (octets_eq cs)
  rw [← String.toByteArray_inj, String.toByteArray_extract]
  simp only [String.offset_pos]
  rw [hbytes, octets_append]
  exact hmiddle.trans (ByteArray.extract_append_eq_left (octets_eq part))

/-! ## The grammar -/

/-- **Generated names are exactly those of the grammar.** A name has a kind and the offsets of its brackets if and only
if it is the marker or nothing, a balanced source name in brackets, the character of the kind, and any rest; the offsets
are then those of these brackets, and the parts are determined by the name. Wherever a name opens its bracket, whatever
stands behind it, everything that is cut out of the name on the way starts and ends between characters, and the count of
open brackets is positive wherever the scan goes on. -/
theorem generated_names_exact (name : String) :
    (∀ kind opens closes,
      (∃ g, parse? name.toList = some g ∧ g.kind = kind ∧ g.opening = opens ∧ g.closing = closes) ↔
        ∃ before source rest, ConsistsOf name.toList before source kind rest ∧ opens = octets before ∧
          closes = octets (before ++ '<' :: source)) ∧
    (∀ before source kind rest before' source' kind' rest', ConsistsOf name.toList before source kind rest →
      ConsistsOf name.toList before' source' kind' rest' →
        before = before' ∧ source = source' ∧ kind = kind' ∧ rest = rest') ∧
    ∀ before body, (before = [] ∨ before = marker) → name.toList = before ++ '<' :: body →
      IsSlice name (octets before) (octets before + 1) ['<'] ∧
      IsSlice name (octets before + 1) name.utf8ByteSize body ∧
      (∀ source after closes, splitAtClose 0 body = some (source, after) → closes = octets (before ++ '<' :: source) →
        IsSlice name (octets before + 1) closes source ∧ IsSlice name closes (closes + 1) ['>'] ∧
          IsSlice name (closes + 1) name.utf8ByteSize after) ∧
      ∀ read more, body = read ++ more → read <+: scanned body → ∃ depth : Nat, openBehind read = depth + 1 ∧
        splitAtClose 0 body = (splitAtClose depth more).map fun p => (read ++ p.1, p.2) := by
  refine ⟨?_, fun _ _ _ _ _ _ _ _ => ConsistsOf.unique, ?_⟩
  · intro kind opens closes
    constructor
    · rintro ⟨g, hg, rfl, rfl, rfl⟩
      exact ⟨g.before, g.source, g.rest, parse?_eq_some_iff.1 hg, g.octets_before.symm, g.closing_eq⟩
    · rintro ⟨before, source, rest, h, rfl, rfl⟩
      obtain ⟨g, hg, rfl, rfl, rfl, rfl⟩ := h.parse
      exact ⟨g, hg, rfl, g.octets_before.symm, g.closing_eq⟩
  · intro before body _ hname
    have hsize : name.utf8ByteSize = octets name.toList := by rw [octets_eq, String.ofList_toList]
    have hopen : octets (before ++ ['<']) = octets before + 1 := octets_append before ['<']
    refine ⟨?_, ?_, ?_, fun read more => open_of_scanned⟩
    · exact isSlice_of_append before ['<'] body (by simp [hname]) rfl hopen.symm
    · exact isSlice_of_append (before ++ ['<']) body [] (by simp [hname]) hopen.symm (by simp [hsize, hname])
    · rintro source after closes hs rfl
      obtain ⟨-, rfl⟩ := splitAtClose_eq_some_iff.1 hs
      have hclose : octets (before ++ '<' :: source ++ ['>']) = octets (before ++ '<' :: source) + 1 :=
        octets_append _ ['>']
      refine ⟨?_, ?_, ?_⟩
      · exact isSlice_of_append (before ++ ['<']) source ('>' :: after) (by simp [hname]) hopen.symm (by simp)
      · exact isSlice_of_append (before ++ '<' :: source) ['>'] after (by simp [hname]) rfl hclose.symm
      · exact isSlice_of_append (before ++ '<' :: source ++ ['>']) after [] (by simp [hname]) hclose.symm
          (by simp [hsize, hname])

/-- a generated name inside another: the letter é takes two octets, and the inner brackets are passed over -/
theorem generated_names_exact_nested :
    ConsistsOf "CS$<<é>b__0>d__1".toList marker "<é>b__0".toList .stateMachineType "__1".toList ∧
      (∃ g, parse? "CS$<<é>b__0>d__1".toList = some g ∧ g.kind = .stateMachineType ∧ g.opening = 3 ∧ g.closing = 12) ∧
      IsSlice "CS$<<é>b__0>d__1" 4 12 "<é>b__0".toList ∧
      (∃ depth : Nat, openBehind "<é".toList = depth + 1) ∧
      ∀ before source kind rest, ConsistsOf "CS$<<é>b__0>d__1".toList before source kind rest →
        source = "<é>b__0".toList := by
  have hparts : ConsistsOf "CS$<<é>b__0>d__1".toList marker "<é>b__0".toList .stateMachineType "__1".toList :=
    ⟨.inr rfl, by decide +kernel, by decide +kernel⟩
  obtain ⟨hexact, hunique, hscan⟩ := generated_names_exact "CS$<<é>b__0>d__1"
  obtain ⟨-, -, hslices, hopen⟩ := hscan marker "<é>b__0>d__1".toList (.inr rfl) (by decide +kernel)
  refine ⟨hparts, ?_, ?_, ?_, fun before source kind rest h => (hunique _ _ _ _ _ _ _ _ h hparts).2.1⟩
  · exact (hexact .stateMachineType 3 12).2 ⟨_, _, _, hparts, by decide +kernel, by decide +kernel⟩
  · exact (hslices "<é>b__0".toList "d__1".toList 12 (by decide +kernel) (by decide +kernel)).1
  · obtain ⟨depth, hdepth, -⟩ := hopen "<é".toList ">b__0>d__1".toList (by decide +kernel) (by decide +kernel)
    exact ⟨depth, hdepth⟩

end GeneratedName

end FrameSymbols
