/-
Generated names as types store them.

A type is stored without its arity marker. The marker is taken off from the right and the brackets are matched from the
left, but the closing bracket and the kind behind it belong to no marker, so what is taken stands in the rest of a
generated name (`ConsistsOf.unmarked`). A name that is not generated does not become generated either, since a marker
may stand behind any rest (`parse?_strip`). `stored_names_read_alike` puts this together.
-/
import FrameSymbols.Proofs.GeneratedName.Grammar
import FrameSymbols.Symbol

namespace FrameSymbols

namespace GeneratedName

theorem Kind.char_ne_marker (k : Kind) : k.char ≠ Arity.marker := by cases k <;> decide

/-- whatever is taken from a generated name is taken from its rest -/
theorem ConsistsOf.unmarked {name before source rest : List Char} {kind : Kind}
    (h : ConsistsOf name before source kind rest) :
    ConsistsOf (Arity.strip name) before source kind (Arity.strip rest) where
  mark := h.mark
  balanced := h.balanced
  text := by
    have hbracket := Arity.strip_behind (before ++ '<' :: source) (kind.char :: rest) (show '>'.isDigit = false by decide)
      (by decide)
    rw [h.text, hbracket, Arity.strip_cons kind.char_ne_marker]

/-- a generated name with a marker behind it is generated -/
theorem ConsistsOf.marked {name before source rest : List Char} {kind : Kind}
    (h : ConsistsOf name before source kind rest) (behind : List Char) :
    ConsistsOf (name ++ behind) before source kind (rest ++ behind) where
  mark := h.mark
  balanced := h.balanced
  text := by rw [h.text]; simp

theorem parse?_strip_of_parse? {name : List Char} {g : GeneratedName} (h : parse? name = some g) :
    parse? (Arity.strip name) = some { g with rest := Arity.strip g.rest } :=
  parse?_eq_some_iff.2 (parse?_eq_some_iff.1 h).unmarked

/-- without its marker a name is taken apart as with it, but for what is taken from the rest -/
theorem parse?_strip (name : List Char) :
    parse? (Arity.strip name) = (parse? name).map fun g => { g with rest := Arity.strip g.rest } := by
  cases hname : parse? name with
  | some g => exact parse?_strip_of_parse? hname
  | none =>
    rcases Arity.strip_eq name with hkeep | ⟨digits, -, -, hcut⟩
    · rw [hkeep, hname]
      rfl
    · -- were the stored name generated, so would be the name with the marker behind it
      cases hstored : parse? (Arity.strip name) with
      | none => rfl
      | some g =>
        have hwhole : parse? name = some { g with rest := g.rest ++ Arity.marker :: digits } := by
          rw [hcut]
          exact parse?_eq_some_iff.2 ((parse?_eq_some_iff.1 hstored).marked _)
        rw [hname] at hwhole
        cases hwhole

/-- the kind of a generated name and the offsets of its brackets -/
def reading? (name : List Char) : Option (Kind × Nat × Nat) := (parse? name).map fun g => (g.kind, g.opening, g.closing)

theorem reading?_strip (name : List Char) : reading? (Arity.strip name) = reading? name := by
  unfold reading?
  rw [parse?_strip, Option.map_map]
  rfl

theorem sourceName?_strip (required : Option Kind) (name : List Char) :
    sourceName? required (Arity.strip name) = sourceName? required name := by
  unfold sourceName?
  rw [parse?_strip]
  cases parse? name <;> rfl

/-- **Generated names are read alike with and without an arity marker.** The name that a type is stored with is generated
exactly if its metadata name is, with the same kind and the same offsets of its brackets, and only the rest loses the
marker. So both embed the same source name, whatever kind is required. -/
theorem stored_names_read_alike (t : TypeSymbol) :
    reading? t.name.toList = reading? t.metadataName.toList ∧
      (parse? t.name.toList = (parse? t.metadataName.toList).map fun g => { g with rest := Arity.strip g.rest }) ∧
      ∀ required, sourceName? required t.name.toList = sourceName? required t.metadataName.toList := by
  have hname : t.name.toList = Arity.strip t.metadataName.toList := String.toList_ofList
  rw [hname]
  exact ⟨reading?_strip _, parse?_strip _, fun required => sourceName?_strip required _⟩

/-- back quotes in the brackets, right behind them and behind the kind: only the last one belongs to a marker -/
example :
    Arity.strip "<a`1>d`2`3".toList = "<a`1>d`2".toList ∧
      reading? "<a`1>d`2`3".toList = some (.stateMachineType, 0, 4) ∧
      Arity.strip "<a`1>`2".toList = "<a`1>".toList ∧ reading? "<a`1>`2".toList = none := by
  decide +kernel

end GeneratedName

end FrameSymbols
