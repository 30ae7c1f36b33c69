/-
Generated names: the arity marker behind them, and the scan for their closing bracket.

Nothing but an arity marker is taken from a name, and behind a character that belongs to no marker it is taken from the
rest (`strip_behind`). The scan for the closing bracket counts the open brackets (`splitAtClose_append`). It ends behind
a balanced text and nowhere else (`splitAtClose_eq_some_iff`).
-/
import FrameSymbols.Arity
import FrameSymbols.GeneratedName
import Mathlib.Data.List.Infix
import Mathlib.Data.List.TakeWhile

namespace FrameSymbols

/-! ## Arity markers -/

namespace Arity

/-- an arity marker at the end of a name is taken from it -/
theorem strip_marked (kept : List Char) {digits : List Char} (hne : digits ≠ [])
    (hd : ∀ d ∈ digits, d.isDigit = true) : strip (kept ++ marker :: digits) = kept := by
  have hrev : (kept ++ marker :: digits).reverse = digits.reverse ++ marker :: kept.reverse := by simp
  have hall : ∀ d ∈ digits.reverse, d.isDigit = true := fun d h => hd d (List.mem_reverse.1 h)
  have htake : (kept ++ marker :: digits).reverse.takeWhile Char.isDigit = digits.reverse := by
    rw [hrev, List.takeWhile_append_of_pos hall]
    exact List.append_nil _
  have hdrop : (kept ++ marker :: digits).reverse.dropWhile Char.isDigit = marker :: kept.reverse := by
    rw [hrev, List.dropWhile_append_of_pos hall]
    rfl
  obtain ⟨d, more, hcons⟩ := List.exists_cons_of_ne_nil (List.reverse_ne_nil_iff.2 hne)
  simp only [strip, htake, hdrop, hcons, if_true, List.reverse_reverse]

/-- nothing but an arity marker is taken from a name -/
theorem strip_eq (name : List Char) :
    strip name = name ∨
      ∃ digits, digits ≠ [] ∧ (∀ d ∈ digits, d.isDigit = true) ∧ name = strip name ++ marker :: digits := by
  have hsplit := List.takeWhile_append_dropWhile (p := Char.isDigit) (l := name.reverse)
  unfold strip
  dsimp only
  split
  · next d more c before hdigits hrest =>
    split
    · next hc =>
      refine .inr ⟨(name.reverse.takeWhile Char.isDigit).reverse, by simp [hdigits], ?_, ?_⟩
      · intro d hd
        exact List.mem_takeWhile_imp (List.mem_reverse.1 hd)
      · rw [hrest, hc] at hsplit
        simpa using (congrArg List.reverse hsplit).symm
    · exact .inl rfl
  · exact .inl rfl

/-- a name from which nothing is taken has no arity marker -/
theorem no_marker_of_strip_eq {name kept digits : List Char} (h : strip name = name) (hne : digits ≠ [])
    (hd : ∀ d ∈ digits, d.isDigit = true) : name ≠ kept ++ marker :: digits := by
  rintro rfl
  rw [strip_marked kept hne hd] at h
  simpa using congrArg List.length h

/-- behind a character that belongs to no marker, what is taken from a name is what is taken from the rest -/
theorem strip_behind (before after : List Char) {c : Char} (hd : c.isDigit = false) (hm : c ≠ marker) :
    strip (before ++ c :: after) = before ++ c :: strip after := by
  rcases strip_eq after with hkeep | ⟨digits, hne, hdigits, hcut⟩
  · rcases strip_eq (before ++ c :: after) with h | ⟨digits, hne, hdigits, h⟩
    · rw [h, hkeep]
    · rcases List.append_eq_append_iff.1 h with ⟨kept, -, hc⟩ | ⟨rest, -, hc⟩
      · cases kept with
        | nil =>
          rw [List.nil_append, List.cons.injEq] at hc
          exact absurd hc.1 hm
        | cons c' kept =>
          rw [List.cons_append, List.cons.injEq] at hc
          exact absurd hc.2 (no_marker_of_strip_eq hkeep hne hdigits)
      · have hmem : c ∈ marker :: digits := by rw [hc]; simp
        rcases List.mem_cons.1 hmem with hcm | hcd
        · exact absurd hcm hm
        · rw [hdigits c hcd] at hd; cases hd
  · have hwhole : before ++ c :: after = before ++ c :: strip after ++ marker :: digits := by
      rw [List.append_assoc, List.cons_append, ← hcut]
    rw [hwhole, strip_marked _ hne hdigits]

/-- the first character of a name is kept, unless it is the back quote of a marker -/
theorem strip_cons {c : Char} (hm : c ≠ marker) (cs : List Char) : strip (c :: cs) = c :: strip cs := by
  rcases strip_eq cs with hkeep | ⟨digits, hne, hdigits, hcut⟩
  · rcases strip_eq (c :: cs) with h | ⟨digits, hne, hdigits, h⟩
    · rw [h, hkeep]
    · cases hkept : strip (c :: cs) with
      | nil =>
        rw [hkept, List.nil_append, List.cons.injEq] at h
        exact absurd h.1 hm
      | cons c' kept =>
        rw [hkept, List.cons_append, List.cons.injEq] at h
        exact absurd h.2 (no_marker_of_strip_eq hkeep hne hdigits)
  · have hwhole : c :: cs = c :: strip cs ++ marker :: digits := by rw [List.cons_append, ← hcut]
    rw [hwhole, strip_marked _ hne hdigits]

end Arity

namespace GeneratedName

/-! ## Balanced brackets -/

/-- with `depth` brackets open, no start of the text closes one too many, and in the end all are closed -/
def BalancedFrom (depth : Nat) (cs : List Char) : Prop :=
  (∀ before ∈ cs.inits, before.count '>' ≤ depth + before.count '<') ∧ cs.count '>' = depth + cs.count '<'

instance (depth : Nat) (cs : List Char) : Decidable (BalancedFrom depth cs) := inferInstanceAs (Decidable (_ ∧ _))

/-- no start of the text closes more brackets than it opens, and in the end all are closed -/
abbrev Balanced (cs : List Char) : Prop := BalancedFrom 0 cs

/-- reading a character opens a bracket, closes one, or leaves the number of open ones as it is -/
theorem balancedFrom_cons_iff {depth next : Nat} {c : Char} {cs : List Char}
    (hd : next + (if c = '>' then 1 else 0) = depth + if c = '<' then 1 else 0) :
    BalancedFrom depth (c :: cs) ↔ BalancedFrom next cs := by
  simp only [BalancedFrom, List.mem_inits, List.prefix_cons_iff, forall_eq_or_imp, List.count_cons, beq_iff_eq]
  constructor
  · rintro ⟨⟨-, hle⟩, heq⟩
    refine ⟨fun before hb => ?_, by omega⟩
    have := hle (c :: before) ⟨before, rfl, hb⟩
    simp only [List.count_cons, beq_iff_eq] at this
    omega
  · rintro ⟨hle, heq⟩
    refine ⟨⟨Nat.zero_le _, ?_⟩, by omega⟩
    rintro before ⟨more, rfl, hmore⟩
    have := hle more hmore
    simp only [List.count_cons, beq_iff_eq]
    omega

/-! ## The scan for the closing bracket -/

/-- a closing bracket without a partner ends the scan; at any other character the number of open brackets goes on -/
theorem depth_cases (depth : Nat) (c : Char) :
    depth = 0 ∧ c = '>' ∨ ∃ next, next + (if c = '>' then 1 else 0) = depth + if c = '<' then 1 else 0 := by
  by_cases hc : c = '>'
  · cases depth with
    | zero => exact .inl ⟨rfl, hc⟩
    | succ depth => exact .inr ⟨depth, by simp [hc]⟩
  · exact .inr ⟨depth + if c = '<' then 1 else 0, by simp [hc]⟩

theorem splitAtClose_cons {depth next : Nat} {c : Char}
    (hd : next + (if c = '>' then 1 else 0) = depth + if c = '<' then 1 else 0) (cs : List Char) :
    splitAtClose depth (c :: cs) = (splitAtClose next cs).map fun p => (c :: p.1, p.2) := by
  rw [splitAtClose.eq_def]
  simp only
  split
  · next hc =>
    obtain rfl : next = depth + 1 := by simpa [hc] using hd
    rfl
  · next ho =>
    split
    · next hc =>
      obtain rfl : next + 1 = depth := by simpa [hc] using hd
      rfl
    · next hc =>
      obtain rfl : next = depth := by simpa [hc, ho] using hd
      rfl

/-- as long as no start of it closes one bracket too many, a text is passed over, and its brackets are counted -/
theorem splitAtClose_append {depth depth' : Nat} {read : List Char} (more : List Char)
    (hr : ∀ before, before <+: read → before.count '>' ≤ depth + before.count '<')
    (hd : depth' + read.count '>' = depth + read.count '<') :
    splitAtClose depth (read ++ more) = (splitAtClose depth' more).map fun p => (read ++ p.1, p.2) := by
  induction read generalizing depth with
  | nil =>
    obtain rfl : depth' = depth := by simpa using hd
    simp
  | cons c read ih =>
    rcases depth_cases depth c with ⟨rfl, rfl⟩ | ⟨next, hn⟩
    · have := hr ['>'] (by simp)
      simp at this
    · have hrest : ∀ before, before <+: read → before.count '>' ≤ next + before.count '<' := by
        intro before hb
        have := hr (c :: before) (List.cons_prefix_cons.2 ⟨rfl, hb⟩)
        simp only [List.count_cons, beq_iff_eq] at this
        omega
      simp only [List.count_cons, beq_iff_eq] at hd
      rw [List.cons_append, splitAtClose_cons hn, ih hrest (by omega), Option.map_map]
      rfl

/-- a text with balanced brackets ends at the closing bracket behind it -/
theorem splitAtClose_of_balanced {depth : Nat} {cs : List Char} (h : BalancedFrom depth cs) (after : List Char) :
    splitAtClose depth (cs ++ '>' :: after) = some (cs, after) := by
  have hread := fun before hb => h.1 before ((List.mem_inits _ _).2 hb)
  rw [splitAtClose_append ('>' :: after) hread ((Nat.zero_add _).trans h.2)]
  simp [splitAtClose]

/-- what the scan leaves before the closing bracket is balanced -/
theorem balancedFrom_of_splitAtClose {depth : Nat} {cs source after : List Char}
    (h : splitAtClose depth cs = some (source, after)) : BalancedFrom depth source := by
  induction cs generalizing depth source with
  | nil => cases h
  | cons c cs ih =>
    rcases depth_cases depth c with ⟨rfl, rfl⟩ | ⟨next, hn⟩
    · cases h
      exact ⟨by simp, rfl⟩
    · rw [splitAtClose_cons hn] at h
      obtain ⟨p, hp, he⟩ := Option.map_eq_some_iff.1 h
      cases he
      exact (balancedFrom_cons_iff hn).2 (ih hp)

/-- the scan ends at the closing bracket behind a balanced text -/
theorem splitAtClose_eq_some_iff {depth : Nat} {cs source after : List Char} :
    splitAtClose depth cs = some (source, after) ↔ BalancedFrom depth source ∧ cs = source ++ '>' :: after := by
  constructor
  · intro h
    exact ⟨balancedFrom_of_splitAtClose h, append_of_splitAtClose h⟩
  · rintro ⟨hb, rfl⟩
    exact splitAtClose_of_balanced hb after

end GeneratedName

end FrameSymbols
