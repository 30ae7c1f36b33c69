/-
Reading ends.

A text is read by a machine that stops (`run_parse`), that never comes back to where it was, and that never leaves the
text. Its faults are at positions of the text (`within_of_parse`), and no name that it reads is nested deeper than the text
has brackets that open (`depth_of_parse`). `reading_ends` puts this together.
-/
import FrameSymbols.Proofs.TypeName.Simulation

namespace FrameSymbols.TypeName

open Machine

/-- the outcome of a machine as the answer for a text -/
def answer (text : String) (outcome : Except Fault TypeName) : Except Error TypeName :=
  outcome.mapError fun f => .malformed (.typeName text f)

/-- a text is read by a machine that stops -/
theorem halts_parse (text : String) :
    ∃ outcome, Halts text.toList start outcome ∧ parse text = answer text outcome := by
  refine ⟨_, halts_start text.toList, ?_⟩
  rw [parse, answer, String.length_toList]
  cases parseChars text.toList <;> rfl

theorem run_parse (text : String) :
    (run text.toList (7 * (text.length + 1)) start).map (answer text) = some (parse text) := by
  obtain ⟨outcome, hhalts, hparse⟩ := halts_parse text
  have hbound : start.bound text.toList < 7 * (text.length + 1) := by
    simp only [bound, start, Phase.rank, String.length_toList]
    omega
  rw [run_of_halts (valid_start _) hhalts hbound, hparse]
  rfl

theorem within_of_parse {text : String} {e : Error} (h : parse text = .error e) :
    ∃ f : Fault, e = .malformed (.typeName text f) ∧ f.Within text.toList := by
  obtain ⟨outcome, ⟨last, hsteps, hhalt⟩, hparse⟩ := halts_parse text
  rw [hparse] at h
  cases outcome with
  | ok n => cases h
  | error f =>
    cases h
    exact ⟨f, rfl, ((valid_start _).steps hsteps).halt_error hhalt⟩

theorem depth_of_parse {text : String} {n : TypeName} (h : parse text = .ok n) : n.depth ≤ text.toList.count '[' := by
  obtain ⟨outcome, ⟨last, hsteps, hhalt⟩, hparse⟩ := halts_parse text
  rw [hparse] at h
  cases outcome with
  | ok m =>
    cases h
    exact (((valid_start _).steps hsteps).halt_ok hhalt).2
  | error f => cases h

/-- **Reading ends on every text.** A machine that takes at most seven steps for each character and seven more comes to
what the text is read as. It stays within the text, and is in no more generic arguments than it has met brackets that
open. When it is back at a phase, or at one before it, it has moved forward, and so it has when it has left the name that
it was about to read. A fault is at a position of the text, with the character there, and a name that is read is nested no
deeper than the text has brackets that open. -/
theorem reading_ends (text : String) :
    (run text.toList (7 * (text.length + 1)) start).map (answer text) = some (parse text) ∧
    (∀ m, Reached text.toList m →
      m.position ≤ text.length ∧ m.stack.length ≤ (text.toList.take m.position).count '[' ∧
      ∀ next, Relation.TransGen (Steps text.toList) m next →
        (m.phase.rank ≤ next.phase.rank → m.position < next.position) ∧
        ((m.phase = .type ∨ ∃ outer, m.phase = .argument outer) → ¬ next.phase.Opens → m.position < next.position)) ∧
    (∀ e, parse text = .error e → ∃ f : Fault, e = .malformed (.typeName text f) ∧ f.Within text.toList) ∧
    ∀ n, parse text = .ok n → n.depth ≤ text.toList.count '[' := by
  refine ⟨run_parse text, fun m hm => ?_, fun e => within_of_parse, fun n => depth_of_parse⟩
  have hv := hm.valid
  refine ⟨?_, Nat.le_trans m.stack_le_depth hv.shallow, fun next hnext => ?_⟩
  · rw [← String.length_toList]
    exact hv.within
  · refine ⟨fun hrank => ?_, hv.leaves hnext⟩
    rcases (hv.onward hnext).forward with hlt | ⟨-, hlower⟩
    · exact hlt
    · exact absurd hlower (Nat.not_lt.2 hrank)

/-- arguments in arguments, and a text that ends before they do -/
theorem reading_ends_samples :
    (∃ n, parse "A[B[C]]" = .ok n ∧ n.depth = 2 ∧ n.depth ≤ "A[B[C]]".toList.count '[') ∧
      parse "A[B" = .error (.malformed (.typeName "A[B" ⟨.unterminatedArguments, 3, none⟩)) := by
  have hread : parse "A[B[C]]" = .ok ⟨"", "A", [], [⟨"", "B", [], [⟨"", "C", [], [], [], none⟩], [], none⟩], [], none⟩ :=
    Option.some.inj ((reading_ends "A[B[C]]").1.symm.trans rfl)
  have hfault : parse "A[B" = _ := Option.some.inj ((reading_ends "A[B").1.symm.trans rfl)
  exact ⟨⟨_, hread, rfl, (reading_ends "A[B[C]]").2.2.2 _ hread⟩, hfault⟩

end FrameSymbols.TypeName
