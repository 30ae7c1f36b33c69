/-
How far a machine has come.

What is true of a run is true of one step (`sound_step`): from a machine within its text, which is not deeper in generic
arguments than it has met brackets that open, a step leads to such a machine or to an outcome. It moves forward or comes
to a later phase, and the first name of a type is left behind the place where it began (`Onward`). So every way back to a
phase has moved forward (`Valid.onward`), and a run ends after no more steps than seven for each character and six more
(`run_of_halts`).
-/
import FrameSymbols.Proofs.TypeName.Machine
import Mathlib.Logic.Relation

namespace FrameSymbols.TypeName

open Text

/-! ## What a step preserves -/

/-- a phase comes before every phase of a lower rank that a machine can reach at the same position -/
def Phase.rank : Phase → Nat
  | .argument _ => 6
  | .type => 5
  | .letter .. => 4
  | .behind _ => 3
  | .suffix .. => 2
  | .comma _ | .assembly .. => 1
  | .closing _ | .separator _ => 0

theorem Phase.rank_lt (phase : Phase) : phase.rank < 7 := by
  cases phase <;> simp [Phase.rank]

/-- the first name of a type has not been read yet -/
def Phase.Opens : Phase → Prop
  | .argument _ | .type => True
  | .letter outer .. => outer = none
  | _ => False

/-- a name or an assembly is made of characters between its start and the position -/
def Phase.Begun (p : Nat) : Phase → Prop
  | .letter _ start letters => start + letters.length ≤ p
  | .assembly _ start => start ≤ p
  | _ => True

/-- the depth of the type at hand; a type in the middle of its arguments is one level deep at least -/
def Phase.depth : Phase → Nat
  | .argument outer | .separator outer => max 1 outer.depth
  | .type => 0
  | .letter outer .. => outer.elim 0 TypeName.depth
  | .behind read | .suffix read _ | .comma read | .assembly read _ | .closing read => read.depth

/-- the depth of the types in the middle of their arguments, each within those behind it -/
def stackDepth : List Frame → Nat
  | [] => 0
  | f :: stack => max (stack.length + max 1 f.outer.depth) (stackDepth stack)

/-- a fault at a position of the text, with the character there; an unexpected character is one -/
structure Fault.Within (chars : List Char) (f : Fault) : Prop where
  within : f.offset ≤ chars.length
  found : f.found = chars[f.offset]?
  unexpected : f.cause = .unexpected → f.offset < chars.length

namespace Machine

/-- the number of arguments a machine is in, or the depth of a type it has read there -/
def depth (m : Machine) : Nat := max (m.stack.length + m.phase.depth) (stackDepth m.stack)

theorem stack_le_depth (m : Machine) : m.stack.length ≤ m.depth :=
  Nat.le_trans (Nat.le_add_right _ _) (Nat.le_max_left _ _)

/-- where the name at hand began -/
def anchor (m : Machine) : Nat :=
  match m.phase with
  | .letter _ start _ => start
  | _ => m.position

variable (chars : List Char)

/-- a machine that is within its text and not deeper than it has met brackets that open -/
structure Valid (m : Machine) : Prop where
  within : m.position ≤ chars.length
  begun : m.phase.Begun m.position
  shallow : m.depth ≤ (chars.take m.position).count '['

/-- a machine moves forward or comes to a later phase, and leaves the first name of a type behind where it began -/
structure Onward (m next : Machine) : Prop where
  forward : m.position < next.position ∨ m.position = next.position ∧ next.phase.rank < m.phase.rank
  anchored : m.anchor ≤ next.anchor
  opened : m.phase.Opens → ¬ next.phase.Opens → m.anchor < next.anchor

variable {chars} {m next : Machine}

theorem Onward.trans {last : Machine} (h : Onward m next) (h' : Onward next last) : Onward m last where
  forward := by
    have := h.forward
    have := h'.forward
    omega
  anchored := Nat.le_trans h.anchored h'.anchored
  opened := fun hm hl => by
    by_cases hn : next.phase.Opens
    · exact Nat.lt_of_le_of_lt h.anchored (h'.opened hn hl)
    · exact Nat.lt_of_lt_of_le (h.opened hm hn) h'.anchored

theorem lt_of_passes {f : Char → Bool} {p : Nat} (h : passes chars p f = true) : p < chars.length := by
  obtain ⟨c, hc, -⟩ := (Option.any_eq_true _ _).1 h
  exact (List.getElem?_eq_some_iff.1 hc).1

theorem lt_of_getElem? {c : Char} {p : Nat} (h : chars[p]? = some c) : p < chars.length :=
  (List.getElem?_eq_some_iff.1 h).1

theorem count_take_le {p q : Nat} (h : p ≤ q) : (chars.take p).count '[' ≤ (chars.take q).count '[' :=
  (List.take_prefix_take_left h).sublist.count_le _

theorem count_take_bracket {p : Nat} (h : chars[p]? = some '[') :
    (chars.take (p + 1)).count '[' = (chars.take p).count '[' + 1 := by
  rw [List.take_add_one, h]
  simp

/-- a step that goes no deeper -/
theorem Valid.keep (hv : m.Valid chars) (hp : m.position ≤ next.position) (hq : next.position ≤ chars.length)
    (hbegun : next.phase.Begun next.position) (hdepth : next.depth ≤ m.depth) : next.Valid chars :=
  ⟨hq, hbegun, Nat.le_trans hdepth (Nat.le_trans hv.shallow (count_take_le hp))⟩

variable {p : Nat} {stack stack' : List Frame} {phase phase' : Phase}

/-- a step over a character, behind the start of whatever is at hand -/
theorem Valid.over (hv : Valid chars ⟨p, phase, stack⟩) (hlt : p < chars.length) (hbegun : phase'.Begun (p + 1))
    (hdepth : depth ⟨p + 1, phase', stack'⟩ ≤ depth ⟨p, phase, stack⟩)
    (hanchor : anchor ⟨p, phase, stack⟩ < anchor ⟨p + 1, phase', stack'⟩) :
    Valid chars ⟨p + 1, phase', stack'⟩ ∧ Onward ⟨p, phase, stack⟩ ⟨p + 1, phase', stack'⟩ :=
  ⟨hv.keep (Nat.le_succ p) hlt hbegun hdepth, .inl (Nat.lt_succ_self p), Nat.le_of_lt hanchor, fun _ _ => hanchor⟩

/-- a step to a later phase at the same position -/
theorem Valid.stay (hv : Valid chars ⟨p, phase, stack⟩) (hrank : phase'.rank < phase.rank) (hbegun : phase'.Begun p)
    (hdepth : depth ⟨p, phase', stack'⟩ ≤ depth ⟨p, phase, stack⟩)
    (hanchor : anchor ⟨p, phase, stack⟩ = anchor ⟨p, phase', stack'⟩) (hopens : phase.Opens → phase'.Opens) :
    Valid chars ⟨p, phase', stack'⟩ ∧ Onward ⟨p, phase, stack⟩ ⟨p, phase', stack'⟩ :=
  ⟨hv.keep (Nat.le_refl p) hv.within hbegun hdepth, .inr ⟨rfl, hrank⟩, Nat.le_of_eq hanchor,
    fun hm hn => absurd (hopens hm) hn⟩

/-- a step over a bracket that opens arguments -/
theorem Valid.deepen {read : TypeName} (hv : Valid chars ⟨p, .behind read, stack⟩) (h : chars[p]? = some '[') :
    Valid chars ⟨p + 1, .argument read, stack⟩ ∧ Onward ⟨p, .behind read, stack⟩ ⟨p + 1, .argument read, stack⟩ := by
  refine ⟨⟨lt_of_getElem? h, trivial, ?_⟩, .inl (Nat.lt_succ_self p), Nat.le_succ p, fun hm => hm.elim⟩
  have hdepth : depth ⟨p + 1, .argument read, stack⟩ ≤ depth ⟨p, .behind read, stack⟩ + 1 := by
    simp only [depth, Phase.depth]
    omega
  show _ ≤ (chars.take (p + 1)).count '['
  rw [count_take_bracket h]
  exact Nat.le_trans hdepth (Nat.succ_le_succ hv.shallow)

theorem getElem?_of_opensArguments {p : Nat} (h : opensArguments (chars.drop p) = true) : chars[p]? = some '[' := by
  rw [← List.head?_drop]
  cases hs : chars.drop p with
  | nil => rw [hs] at h; cases h
  | cons c cs =>
    rw [hs] at h
    simp only [opensArguments, Bool.and_eq_true, decide_eq_true_eq] at h
    rw [List.head?_cons, h.1]

/-- what a step of a valid machine comes to -/
def Sound (chars : List Char) (m : Machine) : Next → Prop
  | .goto next => next.Valid chars ∧ Onward m next
  | .halt (.error f) => f.Within chars
  | .halt (.ok n) => m.position = chars.length ∧ n.depth ≤ chars.count '['

theorem sound_fault {cause : Cause} {q : Nat} (hq : q ≤ chars.length) (hcause : cause = .unexpected → q < chars.length) :
    Sound chars m (fault chars cause q) :=
  ⟨hq, rfl, hcause⟩

theorem sound_stepArgument {outer : TypeName} (hv : Valid chars ⟨p, .argument outer, stack⟩) :
    Sound chars ⟨p, .argument outer, stack⟩ (stepArgument chars p stack outer) := by
  have hpush : ∀ q bracketed, depth ⟨q, .type, ⟨outer, bracketed⟩ :: stack⟩ ≤ depth ⟨p, .argument outer, stack⟩ := by
    intro q bracketed
    simp only [depth, Phase.depth, stackDepth, List.length_cons]
    omega
  unfold stepArgument
  split
  · next hblank => exact hv.over (lt_of_passes hblank) trivial (Nat.le_refl _) (Nat.lt_succ_self p)
  · split
    · next hopen => exact hv.over (lt_of_getElem? hopen) trivial (hpush _ true) (Nat.lt_succ_self p)
    · exact hv.stay (Nat.lt_succ_self 5) trivial (hpush _ false) rfl fun _ => trivial

theorem sound_stepType (hv : Valid chars ⟨p, .type, stack⟩) :
    Sound chars ⟨p, .type, stack⟩ (stepType chars p stack) := by
  unfold stepType
  split
  · next hblank => exact hv.over (lt_of_passes hblank) trivial (Nat.le_refl _) (Nat.lt_succ_self p)
  · exact hv.stay (Nat.lt_succ_self 4) (Nat.le_refl p) (Nat.le_refl _) rfl fun _ => rfl

/-- a name that is not empty has been given a letter at least, so it ends behind its start -/
theorem sound_endName {outer : Option TypeName} {start : Nat} {letters : List Letter}
    (hv : Valid chars ⟨p, .letter outer start letters, stack⟩) :
    Sound chars ⟨p, .letter outer start letters, stack⟩ (endName chars p stack outer start letters) := by
  have hp : p ≤ chars.length := hv.within
  have hbegun : start + letters.length ≤ p := hv.begun
  unfold endName
  dsimp only
  split
  · exact sound_fault (by omega) nofun
  · next hne =>
    have hpositive := List.length_pos_iff.2 hne
    have hkept := length_dropWhileEnd_le (fun l : Letter => isBlank l.char) letters
    have hstart : start < p := by omega
    refine ⟨hv.keep (Nat.le_refl p) hp trivial ?_, .inr ⟨rfl, Nat.lt_succ_self 3⟩, Nat.le_of_lt hstart,
      fun _ _ => hstart⟩
    simp only [depth, Phase.depth, depth_named]
    exact Nat.le_refl _

theorem sound_stepLetter {outer : Option TypeName} {start : Nat} {letters : List Letter}
    (hv : Valid chars ⟨p, .letter outer start letters, stack⟩) :
    Sound chars ⟨p, .letter outer start letters, stack⟩ (stepLetter chars p stack outer start letters) := by
  have hbegun : start + letters.length ≤ p := hv.begun
  -- the start stays where it is, so this is no step over a character like the others
  have hletter : ∀ (l : Letter) (q : Nat), p < q → q ≤ chars.length →
      Valid chars ⟨q, .letter outer start (letters ++ [l]), stack⟩ ∧
        Onward ⟨p, .letter outer start letters, stack⟩ ⟨q, .letter outer start (letters ++ [l]), stack⟩ := by
    intro l q hp hq
    have hlonger : start + (letters ++ [l]).length ≤ q := by
      rw [List.length_append, List.length_singleton]
      omega
    exact ⟨hv.keep (Nat.le_of_lt hp) hq hlonger (Nat.le_refl _), .inl hp, Nat.le_refl start, fun hm hn => absurd hm hn⟩
  unfold stepLetter
  split
  · exact sound_endName hv
  · next c hc =>
    split
    · split
      · exact sound_fault (lt_of_getElem? hc) nofun
      · next e he => exact hletter ⟨e, true⟩ (p + 2) (by omega) (lt_of_getElem? he)
    · split
      · exact sound_endName hv
      · exact hletter ⟨c, false⟩ (p + 1) (Nat.lt_succ_self p) (lt_of_getElem? hc)

theorem sound_stepBehind {read : TypeName} (hv : Valid chars ⟨p, .behind read, stack⟩) :
    Sound chars ⟨p, .behind read, stack⟩ (stepBehind chars p stack read) := by
  unfold stepBehind
  split
  · next hplus => exact hv.over (lt_of_getElem? hplus) (Nat.le_refl _) (Nat.le_refl _) (Nat.lt_succ_self p)
  · split
    · exact sound_fault hv.within nofun
    · split
      · next hopens => exact hv.deepen (getElem?_of_opensArguments hopens)
      · exact hv.stay (Nat.lt_succ_self 2) trivial (Nat.le_refl _) rfl id

theorem sound_returned {read : TypeName} {rank : Option UInt32} (hv : Valid chars ⟨p, .suffix read rank, stack⟩) :
    Sound chars ⟨p, .suffix read rank, stack⟩ (.goto (returned read p stack)) := by
  cases stack with
  | nil => exact hv.stay (Nat.lt_succ_self 1) trivial (Nat.le_refl _) rfl False.elim
  | cons f stack =>
    rw [returned]
    split
    · exact hv.stay (Nat.lt_succ_self 1) trivial (Nat.le_refl _) rfl False.elim
    · refine hv.stay (Nat.succ_pos 1) trivial ?_ rfl False.elim
      simp only [depth, Phase.depth, stackDepth, List.length_cons, depth_withArg]
      omega

theorem sound_stepSuffix {read : TypeName} {rank : Option UInt32} (hv : Valid chars ⟨p, .suffix read rank, stack⟩) :
    Sound chars ⟨p, .suffix read rank, stack⟩ (stepSuffix chars p stack read rank) := by
  have hpass : ∀ {c : Char} {read' : TypeName} {rank' : Option UInt32}, chars[p]? = some c → read'.depth = read.depth →
      Valid chars ⟨p + 1, .suffix read' rank', stack⟩ ∧
        Onward ⟨p, .suffix read rank, stack⟩ ⟨p + 1, .suffix read' rank', stack⟩ := by
    intro c read' rank' hc hsame
    refine hv.over (lt_of_getElem? hc) trivial ?_ (Nat.lt_succ_self p)
    simp only [depth, Phase.depth, hsame]
    exact Nat.le_refl _
  unfold stepSuffix
  cases rank with
  | none =>
    dsimp only
    split
    · next hc => exact hpass hc (depth_withSuffix _ _)
    · split
      · next hc => exact hpass hc (depth_withSuffix _ _)
      · split
        · next hc => exact hpass hc rfl
        · exact sound_returned hv
  | some n =>
    dsimp only
    split
    · next hc => exact hpass hc rfl
    · split
      · next hc => exact hpass hc rfl
      · split
        · next hc => exact hpass hc (depth_withSuffix _ _)
        · exact sound_fault hv.within nofun

theorem sound_stepComma {read : TypeName} (hv : Valid chars ⟨p, .comma read, stack⟩) :
    Sound chars ⟨p, .comma read, stack⟩ (stepComma chars p stack read) := by
  unfold stepComma
  split
  · next hblank => exact hv.over (lt_of_passes hblank) trivial (Nat.le_refl _) (Nat.lt_succ_self p)
  · split
    · next hc => exact hv.over (lt_of_getElem? hc) (Nat.le_refl _) (Nat.le_refl _) (Nat.lt_succ_self p)
    · exact hv.stay (Nat.lt_succ_self 0) trivial (Nat.le_refl _) rfl id

theorem sound_stepAssembly {read : TypeName} {start : Nat} (hv : Valid chars ⟨p, .assembly read start, stack⟩) :
    Sound chars ⟨p, .assembly read start, stack⟩ (stepAssembly chars p stack read start) := by
  have hstart : start ≤ p := hv.begun
  unfold stepAssembly
  dsimp only
  split
  · next hpass => exact hv.over (lt_of_passes hpass) (Nat.le_succ_of_le hstart) (Nat.le_refl _) (Nat.lt_succ_self p)
  · split
    · exact sound_fault (Nat.le_trans hstart hv.within) nofun
    · refine hv.stay (Nat.lt_succ_self 0) trivial ?_ rfl False.elim
      simp only [depth, Phase.depth, depth_withAssembly]
      exact Nat.le_refl _

theorem sound_stepClosing {read : TypeName} (hv : Valid chars ⟨p, .closing read, stack⟩) :
    Sound chars ⟨p, .closing read, stack⟩ (stepClosing chars p stack read) := by
  unfold stepClosing
  cases stack with
  | nil =>
    dsimp only
    split
    · next hend =>
      subst hend
      refine ⟨rfl, ?_⟩
      have hshallow := hv.shallow
      simp only [depth, Phase.depth, List.length_nil, List.take_length] at hshallow
      omega
    · next hne => exact sound_fault hv.within fun _ => Nat.lt_of_le_of_ne hv.within hne
  | cons f stack =>
    dsimp only
    split
    · next hblank => exact hv.over (lt_of_passes hblank) trivial (Nat.le_refl _) (Nat.lt_succ_self p)
    · split
      · next hc =>
        refine hv.over (lt_of_getElem? hc) trivial ?_ (Nat.lt_succ_self p)
        simp only [depth, Phase.depth, stackDepth, List.length_cons, depth_withArg]
        omega
      · exact sound_fault hv.within nofun

theorem sound_stepSeparator {outer : TypeName} (hv : Valid chars ⟨p, .separator outer, stack⟩) :
    Sound chars ⟨p, .separator outer, stack⟩ (stepSeparator chars p stack outer) := by
  unfold stepSeparator
  split
  · next hblank => exact hv.over (lt_of_passes hblank) trivial (Nat.le_refl _) (Nat.lt_succ_self p)
  · split
    · next hc => exact hv.over (lt_of_getElem? hc) trivial (Nat.le_refl _) (Nat.lt_succ_self p)
    · split
      · next hc =>
        refine hv.over (lt_of_getElem? hc) trivial ?_ (Nat.lt_succ_self p)
        simp only [depth, Phase.depth]
        omega
      · exact sound_fault hv.within nofun

/-- a step keeps to the text, moves on, and goes deeper only over a bracket that opens -/
theorem sound_step (hv : m.Valid chars) : Sound chars m (m.step chars) := by
  obtain ⟨p, phase, stack⟩ := m
  cases phase with
  | argument outer => exact sound_stepArgument hv
  | type => exact sound_stepType hv
  | letter outer start letters => exact sound_stepLetter hv
  | behind read => exact sound_stepBehind hv
  | suffix read rank => exact sound_stepSuffix hv
  | comma read => exact sound_stepComma hv
  | assembly read start => exact sound_stepAssembly hv
  | closing read => exact sound_stepClosing hv
  | separator outer => exact sound_stepSeparator hv

theorem Valid.step (hv : m.Valid chars) (h : m.step chars = .goto next) : next.Valid chars ∧ Onward m next := by
  have hsound := sound_step hv
  rwa [h] at hsound

theorem Valid.halt_error (hv : m.Valid chars) {f : Fault} (h : m.step chars = .halt (.error f)) : f.Within chars := by
  have hsound := sound_step hv
  rwa [h] at hsound

theorem Valid.halt_ok (hv : m.Valid chars) {n : TypeName} (h : m.step chars = .halt (.ok n)) :
    m.position = chars.length ∧ n.depth ≤ chars.count '[' := by
  have hsound := sound_step hv
  rwa [h] at hsound

/-! ## What a run comes to -/

theorem valid_start (chars : List Char) : start.Valid chars := ⟨Nat.zero_le _, trivial, Nat.zero_le _⟩

/-- one step of a machine that goes on -/
def Steps (chars : List Char) (m next : Machine) : Prop := m.step chars = .goto next

/-- the machines that come up while a text is read -/
def Reached (chars : List Char) (m : Machine) : Prop := Relation.ReflTransGen (Steps chars) start m

/-- a machine stops with an outcome -/
def Halts (chars : List Char) (m : Machine) (outcome : Except Fault TypeName) : Prop :=
  ∃ last, Relation.ReflTransGen (Steps chars) m last ∧ last.step chars = .halt outcome

theorem Valid.steps (hv : m.Valid chars) (h : Relation.ReflTransGen (Steps chars) m next) : next.Valid chars := by
  induction h with
  | refl => exact hv
  | tail _ hstep ih => exact (ih.step hstep).1

theorem Reached.valid (h : Reached chars m) : m.Valid chars := (valid_start chars).steps h

theorem Valid.onward (hv : m.Valid chars) (h : Relation.TransGen (Steps chars) m next) : Onward m next := by
  induction h with
  | single hstep => exact (hv.step hstep).2
  | tail hsteps hstep ih => exact ih.trans ((hv.steps hsteps.to_reflTransGen).step hstep).2

theorem Valid.anchor_le (hv : m.Valid chars) : m.anchor ≤ m.position := by
  obtain ⟨p, phase, stack⟩ := m
  cases phase with
  | letter outer start letters => exact Nat.le_trans (Nat.le_add_right start letters.length) hv.begun
  | _ => exact Nat.le_refl p

/-- a machine that was about to read a name and has left it behind has moved forward -/
theorem Valid.leaves (hv : m.Valid chars) (h : Relation.TransGen (Steps chars) m next)
    (hphase : m.phase = .type ∨ ∃ outer, m.phase = .argument outer) (hopens : ¬ next.phase.Opens) :
    m.position < next.position := by
  have hanchor : m.phase.Opens ∧ m.anchor = m.position := by
    obtain ⟨p, phase, stack⟩ := m
    rcases hphase with rfl | ⟨outer, rfl⟩
    · exact ⟨trivial, rfl⟩
    · exact ⟨trivial, rfl⟩
  have hnext := (hv.steps h.to_reflTransGen).anchor_le
  have hlt := (hv.onward h).opened hanchor.1 hopens
  omega

/-- a bound on the steps that are left -/
def bound (chars : List Char) (m : Machine) : Nat := 7 * (chars.length - m.position) + m.phase.rank

theorem Onward.bound_lt (h : Onward m next) (hnext : next.Valid chars) : next.bound chars < m.bound chars := by
  have hrank := Phase.rank_lt next.phase
  have hwithin := hnext.within
  unfold bound
  rcases h.forward with hp | ⟨hp, hr⟩ <;> omega

/-- a run ends with the outcome of its machine, if it may take more steps than the bound -/
theorem run_of_halts {outcome : Except Fault TypeName} (hv : m.Valid chars) (h : Halts chars m outcome) {fuel : Nat}
    (hfuel : m.bound chars < fuel) : run chars fuel m = some outcome := by
  induction fuel generalizing m with
  | zero => exact absurd hfuel (Nat.not_lt_zero _)
  | succ fuel ih =>
    obtain ⟨last, hsteps, hhalt⟩ := h
    rw [run]
    rcases hsteps.cases_head with rfl | ⟨next, hstep, hrest⟩
    · rw [hhalt]
    · obtain ⟨hnext, honward⟩ := hv.step hstep
      have hbound := honward.bound_lt hnext
      rw [show m.step chars = .goto next from hstep]
      exact ih hnext ⟨last, hrest, hhalt⟩ (by omega)

end Machine

end FrameSymbols.TypeName
