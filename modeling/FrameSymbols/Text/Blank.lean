/-
Blank characters, trimming, and comparison of names without regard to ASCII case.

A character is blank when it has the Unicode property White_Space (`isBlank_of_isWhitespace`: more than the white space
of core).
-/
namespace FrameSymbols.Text

/-- the code points with the Unicode property White_Space -/
def blankRanges : List (Nat × Nat) :=
  [(0x9, 0xD), (0x20, 0x20), (0x85, 0x85), (0xA0, 0xA0), (0x1680, 0x1680), (0x2000, 0x200A), (0x2028, 0x2029),
    (0x202F, 0x202F), (0x205F, 0x205F), (0x3000, 0x3000)]

/-- whether `c` has the Unicode property White_Space -/
def isBlank (c : Char) : Bool :=
  blankRanges.any fun r => r.1 ≤ c.toNat && c.toNat ≤ r.2

/-- every character that core counts as white space is blank -/
theorem isBlank_of_isWhitespace {c : Char} (h : c.isWhitespace = true) : isBlank c = true := by
  simp only [Char.isWhitespace, Bool.or_eq_true, decide_eq_true_eq] at h
  rcases h with ((rfl | rfl) | rfl) | rfl <;> rfl

def trimStart (cs : List Char) : List Char := cs.dropWhile isBlank

/-- drops the longest run of elements satisfying `p` at the end -/
def dropWhileEnd {α : Type} (p : α → Bool) (xs : List α) : List α := (xs.reverse.dropWhile p).reverse

def trimEnd (cs : List Char) : List Char := dropWhileEnd isBlank cs

def trim (cs : List Char) : List Char := trimEnd (trimStart cs)

theorem length_trimStart_le (cs : List Char) : (trimStart cs).length ≤ cs.length :=
  (List.dropWhile_sublist _).length_le

/-- the simple form of a display name: what stands before the first comma, without blanks around it -/
def beforeComma (s : String) : String := String.ofList (trim (s.toList.takeWhile (· ≠ ',')))

/-- the lower-case form of an ASCII capital; every other character stays -/
def foldCase (c : Char) : Char := c.toLower

/-- equality up to the case of ASCII letters -/
def sameIgnoringCase (a b : String) : Bool := a.toList.map foldCase == b.toList.map foldCase

end FrameSymbols.Text
