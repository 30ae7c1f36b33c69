/-
A machine comes to what is read.

The readers of rests and a machine at positions read the same: where a reader gives a value and a rest, a machine gets to
the position of the rest with the value, and where a reader stops, the machine stops with the same fault (`Arrives`). This
is shown reader by reader (`arrives_simpleName`, `arrives_nestedNames`, `arrives_decorations`, `arrives_qualifier`), and for
type names and generic arguments by induction on what is left of the text (`arrives_readType`, `arrives_readArgs`). A
machine before a text therefore stops with what the text is read as (`halts_start`).
-/
import FrameSymbols.Proofs.TypeName.Progress
import Mathlib.Data.List.DropRight
import Mathlib.Data.List.TakeWhile

namespace FrameSymbols.TypeName

open Text

namespace Machine

/-! ## Arriving -/

/-- a machine comes to the result of a reader: to `next` at the position of the rest, or to the fault -/
def Arrives {α : Type} (chars : List Char) (m : Machine) (result : Except Stop (α × List Char))
    (next : α → Nat → Machine) : Prop :=
  match result with
  | .error stop => Halts chars m (.error (stop.fault chars.length))
  | .ok (a, rest) => ∃ p, p ≤ chars.length ∧ chars.drop p = rest ∧ Relation.ReflTransGen (Steps chars) m (next a p)

variable {α β : Type} {chars : List Char} {m m' : Machine} {result : Except Stop (α × List Char)} {next : α → Nat → Machine}

theorem Halts.trans {outcome : Except Fault TypeName} (h : Relation.ReflTransGen (Steps chars) m m')
    (h' : Halts chars m' outcome) : Halts chars m outcome := by
  obtain ⟨last, hlast, hhalt⟩ := h'
  exact ⟨last, h.trans hlast, hhalt⟩

theorem Arrives.trans (h : Relation.ReflTransGen (Steps chars) m m') (h' : Arrives chars m' result next) :
    Arrives chars m result next := by
  cases result with
  | error stop => exact Halts.trans h h'
  | ok a =>
    obtain ⟨p, hp, hrest, hsteps⟩ := h'
    exact ⟨p, hp, hrest, h.trans hsteps⟩

theorem Arrives.head (h : m.step chars = .goto m') (h' : Arrives chars m' result next) : Arrives chars m result next :=
  .trans (.single h) h'

theorem Arrives.here {a : α} {p : Nat} (hp : p ≤ chars.length) (h : Relation.ReflTransGen (Steps chars) m (next a p)) :
    Arrives chars m (.ok (a, chars.drop p)) next :=
  ⟨p, hp, rfl, h⟩

/-- a fault at the position of a rest is the one of a reader that stops there -/
theorem fault_eq (cause : Cause) {p : Nat} (hp : p ≤ chars.length) :
    fault chars cause p = .halt (.error (Stop.fault chars.length ⟨cause, chars.drop p⟩)) := by
  rw [fault, Stop.fault, List.length_drop, List.head?_drop, Nat.sub_sub_self hp]

theorem Arrives.stop {cause : Cause} {p : Nat} (hp : p ≤ chars.length) (h : m.step chars = fault chars cause p) :
    Arrives chars m (.error ⟨cause, chars.drop p⟩) next :=
  ⟨m, .refl, h.trans (fault_eq cause hp)⟩

theorem Arrives.bind {f : α × List Char → Except Stop (β × List Char)} {last : β → Nat → Machine}
    (h : Arrives chars m result next)
    (hf : ∀ a p, p ≤ chars.length → result = .ok (a, chars.drop p) → Arrives chars (next a p) (f (a, chars.drop p)) last) :
    Arrives chars m (result >>= f) last := by
  cases result with
  | error stop => exact h
  | ok a =>
    obtain ⟨a, rest⟩ := a
    obtain ⟨p, hp, rfl, hsteps⟩ := h
    exact (hf a p hp rfl).trans hsteps

theorem Arrives.map {f : α → β} {last : β → Nat → Machine} (h : Arrives chars m result next)
    (hf : ∀ a p, next a p = last (f a) p) : Arrives chars m (result.map fun r => (f r.1, r.2)) last := by
  cases result with
  | error stop => exact h
  | ok a =>
    obtain ⟨p, hp, hrest, hsteps⟩ := h
    exact ⟨p, hp, hrest, hf _ p ▸ hsteps⟩

/-! ## Characters -/

theorem getElem?_of_drop {s : List Char} {p : Nat} (h : chars.drop p = s) : chars[p]? = s.head? := by
  rw [← h, List.head?_drop]

theorem drop_of_drop {c : Char} {cs : List Char} {p : Nat} (h : chars.drop p = c :: cs) : chars.drop (p + 1) = cs := by
  rw [← List.tail_drop, h, List.tail_cons]

theorem lt_of_drop {c : Char} {cs : List Char} {p : Nat} (h : chars.drop p = c :: cs) : p < chars.length :=
  lt_of_getElem? (getElem?_of_drop h)

theorem drop_of_getElem? {c : Char} {p : Nat} (h : chars[p]? = some c) : ∃ cs, chars.drop p = c :: cs := by
  rwa [← List.head?_drop, List.head?_eq_some_iff] at h

theorem lt_of_length_drop {p q : Nat} (h : (chars.drop q).length < (chars.drop p).length) : p < q := by
  rw [List.length_drop, List.length_drop] at h
  omega

/-- characters that a phase passes over -/
theorem steps_over {phase : Phase} {stack : List Frame} {f : Char → Bool}
    (h : ∀ p, passes chars p f = true → step chars ⟨p, phase, stack⟩ = .goto ⟨p + 1, phase, stack⟩) (p : Nat)
    (hp : p ≤ chars.length) : ∃ q, p ≤ q ∧ q ≤ chars.length ∧ chars.drop q = (chars.drop p).dropWhile f ∧
      (chars.take q).drop p = (chars.drop p).takeWhile f ∧ passes chars q f = false ∧
      Relation.ReflTransGen (Steps chars) ⟨p, phase, stack⟩ ⟨q, phase, stack⟩ := by
  generalize hs : chars.drop p = s
  induction s generalizing p with
  | nil =>
    refine ⟨p, Nat.le_refl p, hp, hs, by simp, ?_, .refl⟩
    rw [passes, getElem?_of_drop hs]
    rfl
  | cons c cs ih =>
    have hc : chars[p]? = some c := getElem?_of_drop hs
    by_cases hf : f c = true
    · obtain ⟨q, hpq, hq, hrest, hslice, hstop, hsteps⟩ := ih (p + 1) (lt_of_drop hs) (drop_of_drop hs)
      have hpass : passes chars p f = true := by
        rw [passes, hc]
        exact hf
      refine ⟨q, Nat.le_of_succ_le hpq, hq, ?_, ?_, hstop, .head (h p hpass) hsteps⟩
      · rw [hrest, List.dropWhile_cons_of_pos hf]
      · rw [List.drop_take, drop_of_drop hs] at hslice
        rw [List.takeWhile_cons_of_pos hf, ← hslice, List.drop_take, hs, show q - p = q - (p + 1) + 1 by omega,
          List.take_succ_cons]
    · refine ⟨p, Nat.le_refl p, hp, ?_, ?_, ?_, .refl⟩
      · rw [hs, List.dropWhile_cons_of_neg hf]
      · simp [hf]
      · rw [passes, hc]
        exact Bool.eq_false_iff.2 hf

/-- blanks are passed over, but for those behind the whole text -/
def SkipsBlanks (stack : List Frame) : Phase → Prop
  | .argument _ | .type | .comma _ | .separator _ => True
  | .closing _ => stack ≠ []
  | .letter .. | .behind _ | .suffix .. | .assembly .. => False

theorem step_blank {phase : Phase} {stack : List Frame} {p : Nat} (hskips : SkipsBlanks stack phase)
    (h : passes chars p isBlank = true) : step chars ⟨p, phase, stack⟩ = .goto ⟨p + 1, phase, stack⟩ := by
  cases phase with
  | argument outer => simp only [step, stepArgument, h, if_true]
  | type => simp only [step, stepType, h, if_true]
  | comma read => simp only [step, stepComma, h, if_true]
  | separator outer => simp only [step, stepSeparator, h, if_true]
  | closing read =>
    obtain ⟨f, stack, rfl⟩ := List.exists_cons_of_ne_nil hskips
    simp only [step, stepClosing, h, if_true]
  | letter => exact hskips.elim
  | behind => exact hskips.elim
  | suffix => exact hskips.elim
  | assembly => exact hskips.elim

theorem steps_over_blanks (phase : Phase) (stack : List Frame) (hskips : SkipsBlanks stack phase) {p : Nat}
    (hp : p ≤ chars.length) : ∃ q, p ≤ q ∧ q ≤ chars.length ∧ chars.drop q = trimStart (chars.drop p) ∧
      passes chars q isBlank = false ∧ Relation.ReflTransGen (Steps chars) ⟨p, phase, stack⟩ ⟨q, phase, stack⟩ := by
  obtain ⟨q, hpq, hq, hrest, -, hstop, hsteps⟩ := steps_over (fun _ => step_blank hskips) p hp
  exact ⟨q, hpq, hq, hrest, hstop, hsteps⟩

/-! ## Names -/

/-- the name that letters make up with those that are read behind them -/
def finish (start : List Char) (ls : List Letter) (r : List Letter × List Char) : Except Stop (List Letter × List Char) :=
  let name := dropWhileEnd (fun l => isBlank l.char) (ls ++ r.1)
  if name = [] then .error ⟨.emptyName, start⟩ else .ok (name, r.2)

theorem simpleName_eq (s : List Char) : simpleName s = letters s >>= finish s [] := rfl

theorem letters_behind (l : Letter) (cs start : List Char) (ls : List Letter) :
    (letters cs).map (fun r => (l :: r.1, r.2)) >>= finish start ls = letters cs >>= finish start (ls ++ [l]) := by
  cases letters cs with
  | error stop => rfl
  | ok r => simp only [Except.map, bind, Except.bind, finish, List.append_assoc, List.singleton_append]

variable {stack : List Frame} {p : Nat}

theorem arrives_endName {outer : Option TypeName} {start : Nat} {ls : List Letter} (hstart : start ≤ chars.length)
    (hp : p ≤ chars.length)
    (h : step chars ⟨p, .letter outer start ls, stack⟩ = endName chars p stack outer start ls) :
    Arrives chars ⟨p, .letter outer start ls, stack⟩ (finish (chars.drop start) ls ([], chars.drop p))
      fun name q => ⟨q, .behind (named outer name), stack⟩ := by
  unfold endName at h
  unfold finish
  dsimp only at h ⊢
  rw [List.append_nil]
  split
  · next hempty =>
    rw [if_pos hempty] at h
    exact .stop hstart h
  · next hne =>
    rw [if_neg hne] at h
    exact .here hp (.single h)

theorem arrives_letters {outer : Option TypeName} {start : Nat} (hstart : start ≤ chars.length) (p : Nat)
    (hp : p ≤ chars.length) (ls : List Letter) :
    Arrives chars ⟨p, .letter outer start ls, stack⟩ (letters (chars.drop p) >>= finish (chars.drop start) ls)
      fun name q => ⟨q, .behind (named outer name), stack⟩ := by
  cases hs : chars.drop p with
  | nil =>
    have hstep : step chars ⟨p, .letter outer start ls, stack⟩ = endName chars p stack outer start ls := by
      simp only [step, stepLetter, getElem?_of_drop hs, List.head?_nil]
    have hend := arrives_endName hstart hp hstep
    rwa [hs] at hend
  | cons c cs =>
    have hlt := lt_of_drop hs
    by_cases hc : c = '\\'
    · subst hc
      cases cs with
      | nil =>
        have hnone : chars[p + 1]? = none := getElem?_of_drop (drop_of_drop hs)
        rw [letters, if_pos rfl, ← drop_of_drop hs]
        refine .stop hlt ?_
        simp only [step, stepLetter, getElem?_of_drop hs, List.head?_cons, if_true, hnone]
      | cons e cs =>
        have hsome : chars[p + 1]? = some e := getElem?_of_drop (drop_of_drop hs)
        have hbehind : chars.drop (p + 2) = cs := drop_of_drop (drop_of_drop hs)
        have hstep : step chars ⟨p, .letter outer start ls, stack⟩ =
            .goto ⟨p + 2, .letter outer start (ls ++ [⟨e, true⟩]), stack⟩ := by
          simp only [step, stepLetter, getElem?_of_drop hs, List.head?_cons, if_true, hsome]
        rw [letters, if_pos rfl, letters_behind, ← hbehind]
        refine .head hstep ?_
        exact arrives_letters hstart (p + 2) (lt_of_getElem? hsome) (ls ++ [⟨e, true⟩])
    · by_cases hd : isDelimiter c = true
      · have hstep : step chars ⟨p, .letter outer start ls, stack⟩ = endName chars p stack outer start ls := by
          simp only [step, stepLetter, getElem?_of_drop hs, List.head?_cons, if_neg hc, if_pos hd]
        have hend := arrives_endName hstart hp hstep
        rw [hs] at hend
        rw [letters.eq_def]
        simp only [if_neg hc, if_pos hd]
        exact hend
      · have hread : letters (c :: cs) = (letters cs).map fun r => (⟨c, false⟩ :: r.1, r.2) := by
          rw [letters.eq_def]
          simp only [if_neg hc, if_neg hd]
        have hstep : step chars ⟨p, .letter outer start ls, stack⟩ =
            .goto ⟨p + 1, .letter outer start (ls ++ [⟨c, false⟩]), stack⟩ := by
          simp only [step, stepLetter, getElem?_of_drop hs, List.head?_cons, if_neg hc, if_neg hd]
        rw [hread, letters_behind, ← drop_of_drop hs]
        refine .head hstep ?_
        exact arrives_letters hstart (p + 1) hlt (ls ++ [⟨c, false⟩])
  termination_by chars.length - p
  decreasing_by all_goals omega

theorem arrives_simpleName {outer : Option TypeName} (hp : p ≤ chars.length) :
    Arrives chars ⟨p, .letter outer p [], stack⟩ (simpleName (chars.drop p))
      fun name q => ⟨q, .behind (named outer name), stack⟩ := by
  rw [simpleName_eq]
  exact arrives_letters hp p hp []

theorem arrives_nestedNames (p : Nat) (hp : p ≤ chars.length) (read : TypeName) :
    Arrives chars ⟨p, .behind read, stack⟩ (nestedNames (chars.drop p))
      fun names q => ⟨q, .behind { read with nested := read.nested ++ names }, stack⟩ := by
  by_cases hplus : chars[p]? = some '+'
  · obtain ⟨cs, hs⟩ := drop_of_getElem? hplus
    have hlt := lt_of_drop hs
    rw [hs, nestedNames_plus, ← drop_of_drop hs]
    have hstep : step chars ⟨p, .behind read, stack⟩ = .goto ⟨p + 1, .letter (some read) (p + 1) [], stack⟩ := by
      simp only [step, stepBehind, if_pos hplus]
    refine .head hstep (.bind (arrives_simpleName hlt) fun name q hq hname => ?_)
    have hforward : p + 1 < q := lt_of_length_drop (length_of_simpleName hname)
    refine .bind (arrives_nestedNames q hq _) fun names r hr _ => .here hr ?_
    simp only [named, List.append_assoc]
    exact .refl
  · rw [nestedNames_of_head (by rwa [List.head?_drop])]
    refine .here hp ?_
    cases read
    simp only [List.append_nil]
    exact .refl
  termination_by chars.length - p
  decreasing_by omega

theorem head_of_nestedNames {s rest : List Char} {names : List String} (h : nestedNames s = .ok (names, rest)) :
    rest.head? ≠ some '+' := by
  fun_induction nestedNames s generalizing names rest with
  | case1 =>
    cases h
    simp
  | case2 cs ih =>
    obtain ⟨name, hname, h⟩ := attach_bind_eq_ok_iff.1 h
    obtain ⟨more, hmore, h⟩ := bind_eq_ok_iff.1 h
    cases h
    exact ih name hname hmore
  | case3 c cs hc =>
    cases h
    exact fun hplus => hc (Option.some.inj hplus)

/-! ## Decorations and assemblies -/

theorem arrives_decorations (p : Nat) (hp : p ≤ chars.length) (read : TypeName) (rank : Option UInt32) :
    Arrives chars ⟨p, .suffix read rank, stack⟩ (decorations rank (chars.drop p))
      fun suffixes q => returned { read with suffixes := read.suffixes ++ suffixes } q stack := by
  have hend : returned read p stack = returned { read with suffixes := read.suffixes ++ [] } p stack := by
    cases read
    simp only [List.append_nil]
  cases hs : chars.drop p with
  | nil =>
    have hnone : chars[p]? = none := getElem?_of_drop hs
    cases rank with
    | none =>
      have hstep : step chars ⟨p, .suffix read none, stack⟩ = .goto (returned read p stack) := by
        simp [step, stepSuffix, hnone]
      rw [decorations, ← hs]
      exact .here hp (.single (hend ▸ hstep))
    | some n =>
      rw [decorations, ← hs]
      refine .stop hp ?_
      simp [step, stepSuffix, hnone]
  | cons c cs =>
    have hc : chars[p]? = some c := getElem?_of_drop hs
    have hlt := lt_of_drop hs
    -- decorations behind one that ends here, and indices behind one that goes on
    have hmore : ∀ sf : Suffix, step chars ⟨p, .suffix read rank, stack⟩ =
        .goto ⟨p + 1, .suffix (read.withSuffix sf) none, stack⟩ →
        Arrives chars ⟨p, .suffix read rank, stack⟩ ((decorations none cs).map fun r => (sf :: r.1, r.2))
          fun suffixes q => returned { read with suffixes := read.suffixes ++ suffixes } q stack := by
      intro sf hstep
      rw [← drop_of_drop hs]
      refine .head hstep (.map (arrives_decorations (p + 1) hlt (read.withSuffix sf) none) fun suffixes q => ?_)
      simp only [withSuffix, List.append_assoc, List.singleton_append]
    have hindex : ∀ rank', step chars ⟨p, .suffix read rank, stack⟩ = .goto ⟨p + 1, .suffix read rank', stack⟩ →
        Arrives chars ⟨p, .suffix read rank, stack⟩ (decorations rank' cs)
          fun suffixes q => returned { read with suffixes := read.suffixes ++ suffixes } q stack := by
      intro rank' hstep
      rw [← drop_of_drop hs]
      exact .head hstep (arrives_decorations (p + 1) hlt read rank')
    rw [decorations.eq_def]
    cases rank with
    | none =>
      dsimp only
      split
      · next h => exact hmore .pointer (by simp [step, stepSuffix, hc, h])
      · next h1 =>
        split
        · next h => exact hmore .byRef (by simp [step, stepSuffix, hc, h])
        · next h2 =>
          split
          · next h => exact hindex (some 1) (by simp [step, stepSuffix, hc, h])
          · next h3 =>
            have hstep : step chars ⟨p, .suffix read none, stack⟩ = .goto (returned read p stack) := by
              simp [step, stepSuffix, hc, h1, h2, h3]
            rw [← hs]
            exact .here hp (.single (hend ▸ hstep))
    | some n =>
      dsimp only
      split
      · next h => exact hindex (some (n + 1)) (by simp [step, stepSuffix, hc, h])
      · next h1 =>
        split
        · next h => exact hindex (some n) (by simp [step, stepSuffix, hc, h])
        · next h2 =>
          split
          · next h => exact hmore (.ofRank n) (by simp [step, stepSuffix, hc, h])
          · next h3 =>
            rw [← hs]
            exact .stop hp (by simp [step, stepSuffix, hc, h1, h2, h3])
  termination_by chars.length - p
  decreasing_by all_goals omega

/-- an assembly goes on to the end of the text, or in brackets to the one that closes them -/
theorem qualifier_comma (outermost : Bool) (cs : List Char) : qualifier (!outermost) (',' :: cs) =
    if trim (cs.takeWhile fun c => outermost || c ≠ ']') = [] then .error ⟨.emptyAssembly, cs⟩
    else .ok (some (String.ofList (trim (cs.takeWhile fun c => outermost || c ≠ ']'))),
      cs.dropWhile fun c => outermost || c ≠ ']') := by
  rw [qualifier, if_pos rfl]
  cases outermost with
  | true =>
    have htake : cs.takeWhile (fun _ => true) = cs := List.takeWhile_eq_self_iff.2 fun _ _ => rfl
    have hdrop : cs.dropWhile (fun _ => true) = [] := List.dropWhile_eq_nil_iff.2 fun _ _ => rfl
    simp only [Bool.not_true, Bool.false_eq_true, if_false, Bool.true_or, htake, hdrop]
  | false => simp only [Bool.not_false, if_true, Bool.false_or]

theorem arrives_qualifier {read : TypeName} (hp : p ≤ chars.length) (hread : read.assembly = none) :
    Arrives chars ⟨p, .comma read, stack⟩ (qualifier (!stack.isEmpty) (trimStart (chars.drop p)))
      fun assembly q => ⟨q, .closing { read with assembly }, stack⟩ := by
  have hnone : { read with assembly := none } = read := by
    cases read
    cases hread
    rfl
  obtain ⟨q, -, hq, hrest, hstop, hsteps⟩ := steps_over_blanks (.comma read) stack trivial hp
  refine .trans hsteps ?_
  rw [← hrest]
  by_cases hcomma : chars[q]? = some ','
  · obtain ⟨cs, hs⟩ := drop_of_getElem? hcomma
    have hstep : step chars ⟨q, .comma read, stack⟩ = .goto ⟨q + 1, .assembly read (q + 1), stack⟩ := by
      simp only [step, stepComma, hstop, Bool.false_eq_true, if_false, hcomma, if_true]
    have hletter : ∀ p, passes chars p (fun c => stack.isEmpty || c ≠ ']') = true →
        step chars ⟨p, .assembly read (q + 1), stack⟩ = .goto ⟨p + 1, .assembly read (q + 1), stack⟩ := by
      intro p hpass
      simp only [step, stepAssembly, hpass, if_true]
    obtain ⟨r, -, hr, hbehind, hslice, hend, hletters⟩ := steps_over hletter (q + 1) (lt_of_drop hs)
    rw [drop_of_drop hs] at hbehind hslice
    rw [hs, qualifier_comma]
    refine .head hstep (.trans hletters ?_)
    rw [← hslice, ← hbehind, ← drop_of_drop hs]
    split
    · next hempty =>
      refine .stop (lt_of_drop hs) ?_
      simp only [step, stepAssembly, hend, Bool.false_eq_true, if_false, hempty, if_true]
    · next hne =>
      refine .here hr (.single ?_)
      simp only [Steps, step, stepAssembly, hend, Bool.false_eq_true, if_false, hne]
  · have hstep : step chars ⟨q, .comma read, stack⟩ = .goto ⟨q, .closing read, stack⟩ := by
      simp only [step, stepComma, hstop, Bool.false_eq_true, if_false, hcomma]
    have hplain : qualifier (!stack.isEmpty) (chars.drop q) = .ok (none, chars.drop q) := by
      cases hs : chars.drop q with
      | nil => rfl
      | cons c cs => rw [qualifier, if_neg fun hc => hcomma (by rw [getElem?_of_drop hs, hc]; rfl)]
    rw [hplain]
    refine .here hq (.single ?_)
    rw [hnone]
    exact hstep

theorem arrives_closing {read : TypeName} {f : Frame} (hp : p ≤ chars.length) :
    Arrives chars ⟨p, .closing read, f :: stack⟩
      (closingBracket (trimStart (chars.drop p)) >>= fun rest => return (read, rest))
      fun arg q => ⟨q, .separator (f.outer.withArg arg), stack⟩ := by
  obtain ⟨q, -, hq, hrest, hstop, hsteps⟩ := steps_over_blanks (.closing read) (f :: stack) (List.cons_ne_nil f stack) hp
  refine .trans hsteps ?_
  rw [← hrest]
  cases hs : chars.drop q with
  | nil =>
    rw [closingBracket, ← hs]
    refine .stop hq ?_
    simp [step, stepClosing, hstop, getElem?_of_drop hs]
  | cons c cs =>
    have hc : chars[q]? = some c := getElem?_of_drop hs
    rw [closingBracket]
    split
    · next h =>
      rw [← drop_of_drop hs]
      refine .here (lt_of_drop hs) (.single ?_)
      simp [Steps, step, stepClosing, hstop, hc, h]
    · next h =>
      rw [← hs]
      refine .stop hq ?_
      simp [step, stepClosing, hstop, hc, h]

/-! ## Type names -/

/-- a machine at a type name comes to what is read there -/
def ArrivesType (chars : List Char) (p : Nat) : Prop :=
  ∀ stack, Arrives chars ⟨p, .type, stack⟩ (readType (chars.drop p)) fun n q => returned n q stack

/-- a machine at generic arguments comes to what is read there -/
def ArrivesArgs (chars : List Char) (p : Nat) : Prop :=
  ∀ outer stack, Arrives chars ⟨p, .argument outer, stack⟩ (readArgs (chars.drop p))
    fun args q => ⟨q, .suffix { outer with args := outer.args ++ args } none, stack⟩

theorem assembly_of_readType {s rest : List Char} {n : TypeName} (h : readType s = .ok (n, rest)) :
    n.assembly = none := by
  obtain ⟨ls, r, names, r', args, r'', suffixes, -, -, -, -, -, rfl⟩ := readsType_iff.1 (readsType_iff_readType.2 h)
  rfl

theorem readType_trimStart (s : List Char) : readType (trimStart s) = readType s := by
  have htrim : trimStart (trimStart s) = trimStart s := List.dropWhile_idempotent isBlank s
  rw [readType_eq, readType_eq s, htrim]

theorem arrives_argsAfter {read : TypeName} (hp : p ≤ chars.length) (hplus : (chars.drop p).head? ≠ some '+')
    (htop : read.top ≠ "") (hargs : ∀ q, p < q → q ≤ chars.length → ArrivesArgs chars q) :
    Arrives chars ⟨p, .behind read, stack⟩ (readArgsAfter (chars.drop p))
      fun args q => ⟨q, .suffix { read with args := read.args ++ args } none, stack⟩ := by
  rw [List.head?_drop] at hplus
  unfold readArgsAfter
  split
  · next hopens =>
    have hlt := lt_of_getElem? (getElem?_of_opensArguments hopens)
    have hstep : step chars ⟨p, .behind read, stack⟩ = .goto ⟨p + 1, .argument read, stack⟩ := by
      simp only [step, stepBehind, if_neg hplus, if_neg htop, if_pos hopens]
    rw [List.tail_drop]
    exact .head hstep (hargs (p + 1) (Nat.lt_succ_self p) hlt read stack)
  · next hopens =>
    have hstep : step chars ⟨p, .behind read, stack⟩ = .goto ⟨p, .suffix read none, stack⟩ := by
      simp only [step, stepBehind, if_neg hplus, if_neg htop, if_neg hopens]
    refine .here hp (.single ?_)
    cases read
    rwa [List.append_nil]

theorem arrives_readType (hp : p ≤ chars.length) (hargs : ∀ q, p < q → q ≤ chars.length → ArrivesArgs chars q) :
    ArrivesType chars p := by
  intro stack
  obtain ⟨q, hpq, hq, hrest, hstop, hsteps⟩ := steps_over_blanks .type stack trivial hp
  have hstep : step chars ⟨q, .type, stack⟩ = .goto ⟨q, .letter none q [], stack⟩ := by
    simp only [step, stepType, hstop, Bool.false_eq_true, if_false]
  rw [readType_eq, ← hrest]
  refine .trans hsteps (.head hstep (.bind (arrives_simpleName hq) fun ls q' hq' hname => ?_))
  refine .bind (arrives_nestedNames q' hq' _) fun names r hr hnested => ?_
  have hplus := head_of_nestedNames hnested
  split
  · next htop =>
    refine .stop hr ?_
    rw [List.head?_drop] at hplus
    simp only [step, stepBehind, if_neg hplus, named, htop, if_true]
  · next htop =>
    have hforward : q < q' := lt_of_length_drop (length_of_simpleName hname)
    have hforward' : q' ≤ r := by
      have := length_of_nestedNames hnested
      rw [List.length_drop, List.length_drop] at this
      omega
    refine .bind (arrives_argsAfter hr hplus htop fun q'' h => hargs q'' (by omega)) fun args r' hr' _ => ?_
    exact .bind (arrives_decorations r' hr' _ none) fun suffixes r'' hr'' _ => .here hr'' .refl

theorem arrives_readArg {outer : TypeName} (hp : p ≤ chars.length)
    (htype : ∀ q, p ≤ q → q ≤ chars.length → ArrivesType chars q) :
    Arrives chars ⟨p, .argument outer, stack⟩ (readArg (chars.drop p))
      fun arg q => ⟨q, .separator (outer.withArg arg), stack⟩ := by
  obtain ⟨q, hpq, hq, hrest, hstop, hsteps⟩ := steps_over_blanks (.argument outer) stack trivial hp
  refine .trans hsteps ?_
  unfold readArg
  rw [← hrest, List.head?_drop]
  split
  · next hopen =>
    have hlt := lt_of_getElem? hopen
    have hstep : step chars ⟨q, .argument outer, stack⟩ = .goto ⟨q + 1, .type, ⟨outer, true⟩ :: stack⟩ := by
      simp only [step, stepArgument, hstop, Bool.false_eq_true, if_false, if_pos hopen]
    rw [List.tail_drop]
    refine .head hstep (.bind (htype (q + 1) (by omega) hlt (⟨outer, true⟩ :: stack)) fun n r hr hn => ?_)
    refine .bind (arrives_qualifier hr (assembly_of_readType hn)) fun assembly r' hr' _ => ?_
    exact arrives_closing hr'
  · next hopen =>
    have hstep : step chars ⟨q, .argument outer, stack⟩ = .goto ⟨q, .type, ⟨outer, false⟩ :: stack⟩ := by
      simp only [step, stepArgument, hstop, Bool.false_eq_true, if_false, if_neg hopen]
    rw [← readType_trimStart, ← hrest]
    exact .head hstep (htype q hpq hq (⟨outer, false⟩ :: stack))

/-- by induction on what is left of the text; an argument without brackets of its own begins where the arguments do, and
only the arguments in it are further on -/
theorem arrives_readArgs (p : Nat) (hp : p ≤ chars.length) : ArrivesArgs chars p := by
  intro outer stack
  have htype : ∀ q, p ≤ q → q ≤ chars.length → ArrivesType chars q := fun q hq hle =>
    arrives_readType hle fun r hr hle' => arrives_readArgs r hle'
  rw [readArgs_eq]
  refine .bind (arrives_readArg hp htype) fun arg q hq harg => ?_
  have hforward : p < q := lt_of_length_drop (readsArg_iff_readArg.2 harg).shorter
  obtain ⟨r, hqr, hr, hrest, hstop, hsteps⟩ := steps_over_blanks (.separator (outer.withArg arg)) stack trivial hq
  refine .trans hsteps ?_
  rw [← hrest, List.head?_drop, List.tail_drop]
  split
  · next hcomma =>
    have hlt := lt_of_getElem? hcomma
    have hstep : step chars ⟨r, .separator (outer.withArg arg), stack⟩ =
        .goto ⟨r + 1, .argument (outer.withArg arg), stack⟩ := by
      simp only [step, stepSeparator, hstop, Bool.false_eq_true, if_false, if_pos hcomma]
    refine .head hstep (.bind (arrives_readArgs (r + 1) hlt (outer.withArg arg) stack) fun more r' hr' _ => .here hr' ?_)
    simp only [withArg, List.append_assoc, List.singleton_append]
    exact .refl
  · next hcomma =>
    split
    · next hclose =>
      refine .here (lt_of_getElem? hclose) (.single ?_)
      simp only [Steps, step, stepSeparator, hstop, Bool.false_eq_true, if_false, if_neg hcomma, if_pos hclose, withArg]
    · next hclose =>
      refine .stop hr ?_
      simp only [step, stepSeparator, hstop, Bool.false_eq_true, if_false, if_neg hcomma, if_neg hclose]
  termination_by chars.length - p
  decreasing_by all_goals omega

/-- a machine before a text stops with what the text is read as -/
theorem halts_start (chars : List Char) :
    Halts chars start ((parseChars chars).mapError fun stop => stop.fault chars.length) := by
  have htype : ArrivesType chars 0 :=
    arrives_readType (Nat.zero_le _) fun q _ hq => arrives_readArgs q hq
  -- the name and its assembly, before anything that may follow
  have hwhole : Arrives chars start (readType chars >>= fun t => qualifier false (trimStart t.2) >>= fun q =>
      return ({ t.1 with assembly := q.1 }, q.2)) fun n q => ⟨q, .closing n, []⟩ := by
    refine .bind (htype []) fun n p hp hn => ?_
    refine .bind (arrives_qualifier hp (assembly_of_readType hn)) fun assembly q hq _ => .here hq .refl
  rw [parseChars_eq]
  cases hread : readType chars with
  | error stop =>
    rw [hread] at hwhole
    exact hwhole
  | ok t =>
    rw [hread] at hwhole
    simp only [bind, Except.bind, pure, Except.pure] at hwhole ⊢
    cases hassembly : qualifier false (trimStart t.2) with
    | error stop =>
      rw [hassembly] at hwhole
      exact hwhole
    | ok q =>
      rw [hassembly] at hwhole
      obtain ⟨assembly, rest⟩ := q
      obtain ⟨p, hp, hrest, hsteps⟩ := hwhole
      refine ⟨_, hsteps, ?_⟩
      cases rest with
      | nil =>
        have hend : p = chars.length := Nat.le_antisymm hp (List.drop_eq_nil_iff.1 hrest)
        simp only [step, stepClosing, if_pos hend]
        rfl
      | cons c cs =>
        have hend : p ≠ chars.length := Nat.ne_of_lt (lt_of_drop hrest)
        simp only [step, stepClosing, if_neg hend]
        rw [fault_eq .unexpected hp, hrest]
        rfl

end Machine

end FrameSymbols.TypeName
