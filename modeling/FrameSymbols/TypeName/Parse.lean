/-
Reading serialized type names.

A name is made of characters up to a delimiter; a backslash takes the next character literally, and blanks at the end do
not count. Names joined by plus signs lead into nested types, and the last plain dot of the first of them ends the
namespace. A bracket after the names opens generic arguments, unless what follows it can only be an array rank. An argument
may stand in brackets of its own and then may name its assembly, up to the closing bracket; the assembly of the whole name
goes on to the end of the text.

Each step gives back a rest that is shorter than what it was given (`Step.shorter`, `length_of_letters`,
`length_of_suffixes`, `length_of_qualifier`), which is why reading ends. A fault is reported at the character where it is
noticed.
-/
import FrameSymbols.Error

namespace FrameSymbols.TypeName

open Text

/-- a cause and the text that was left when it was noticed -/
structure Stop where
  cause : Cause
  rest : List Char

/-- the fault in a text of `total` characters -/
def Stop.fault (total : Nat) (stop : Stop) : Fault :=
  ⟨stop.cause, total - stop.rest.length, stop.rest.head?⟩

/-- what was read and what is left, which is shorter than `s` -/
structure Step (s : List Char) (α : Type) where
  value : α
  rest : List Char
  shorter : rest.length < s.length

/-- a result together with the fact that it is the result -/
def attach {ε α : Type} (x : Except ε α) : Except ε { a : α // x = .ok a } :=
  match x with
  | .ok a => .ok ⟨a, rfl⟩
  | .error e => .error e

/-- a character of a name, and whether it was escaped -/
structure Letter where
  char : Char
  escaped : Bool
  deriving DecidableEq, Repr

/-- the characters of a name as text -/
def spell (ls : List Letter) : String := String.ofList (ls.map (·.char))

/-- the characters that end a name unless they are escaped -/
def isDelimiter (c : Char) : Bool :=
  c = '+' || c = ',' || c = '[' || c = ']' || c = '*' || c = '&'

/-- the letters up to the next delimiter -/
def letters : List Char → Except Stop (List Letter × List Char)
  | [] => .ok ([], [])
  | c :: cs =>
    if c = '\\' then
      match cs with
      | [] => .error ⟨.danglingEscape, []⟩
      | e :: cs => (letters cs).map fun p => (⟨e, true⟩ :: p.1, p.2)
    else if isDelimiter c then .ok ([], c :: cs)
    else (letters cs).map fun p => (⟨c, false⟩ :: p.1, p.2)

/-- one name: its letters without the blanks at the end -/
def simpleName (s : List Char) : Except Stop (List Letter × List Char) := do
  let p ← letters s
  let kept := dropWhileEnd (fun l => isBlank l.char) p.1
  if kept = [] then .error ⟨.emptyName, s⟩ else .ok (kept, p.2)

/-- splits a name at its last plain dot into a namespace and a simple name; a dot at the start does not count -/
def splitSpace (ls : List Letter) : String × String :=
  let isDot := fun l : Letter => l.char = '.' && !l.escaped
  match ls.reverse.dropWhile (!isDot ·) with
  | _ :: l :: before => (spell (l :: before).reverse, spell (ls.reverse.takeWhile (!isDot ·)).reverse)
  | _ => ("", spell ls)

/-- the decoration for brackets with room for `rank` indices -/
def Suffix.ofRank (rank : UInt32) : Suffix := if rank = 1 then .vector else .array rank

/-- the decorations up to the first character that starts none; `rank` counts the indices of brackets that are open -/
def decorations (rank : Option UInt32) : List Char → Except Stop (List Suffix × List Char)
  | [] =>
    match rank with
    | none => .ok ([], [])
    | some _ => .error ⟨.unterminatedRank, []⟩
  | c :: cs =>
    match rank with
    | none =>
      if c = '*' then (decorations none cs).map fun p => (.pointer :: p.1, p.2)
      else if c = '&' then (decorations none cs).map fun p => (.byRef :: p.1, p.2)
      else if c = '[' then decorations (some 1) cs
      else .ok ([], c :: cs)
    | some n =>
      if c = ',' then decorations (some (n + 1)) cs
      else if c = '*' then decorations (some n) cs
      else if c = ']' then (decorations none cs).map fun p => (Suffix.ofRank n :: p.1, p.2)
      else .error ⟨.unterminatedRank, c :: cs⟩

def suffixList (s : List Char) : Except Stop (List Suffix × List Char) := decorations none s

/-- the name of an assembly after a comma; the name of an argument in brackets ends before the closing one -/
def qualifier (bracketed : Bool) (s : List Char) : Except Stop (Option String × List Char) :=
  match s with
  | [] => .ok (none, [])
  | c :: cs =>
    if c = ',' then
      let name := trim (if bracketed then cs.takeWhile (· ≠ ']') else cs)
      let rest := if bracketed then cs.dropWhile (· ≠ ']') else []
      if name = [] then .error ⟨.emptyAssembly, cs⟩ else .ok (some (String.ofList name), rest)
    else .ok (none, c :: cs)

def closingBracket (s : List Char) : Except Stop (List Char) :=
  match s with
  | [] => .error ⟨.missingBracket, []⟩
  | c :: cs => if c = ']' then .ok cs else .error ⟨.missingBracket, c :: cs⟩

/-- whether generic arguments follow: a bracket that opens no array rank -/
def opensArguments (s : List Char) : Bool :=
  match s with
  | [] => false
  | c :: cs => c = '[' && cs.head?.all fun d => d ≠ ']' && d ≠ ',' && d ≠ '*'

theorem length_dropWhileEnd_le {α : Type} (p : α → Bool) (xs : List α) : (dropWhileEnd p xs).length ≤ xs.length := by
  have := (List.dropWhile_sublist (l := xs.reverse) p).length_le
  simpa [dropWhileEnd] using this

theorem length_of_letters {s rest : List Char} {ls : List Letter} (h : letters s = .ok (ls, rest)) :
    ls.length + rest.length ≤ s.length := by
  fun_induction letters s generalizing ls rest with
  | case1 => cases h; simp
  | case2 => cases h
  | case3 e cs ih =>
    cases hl : letters cs with
    | error => simp [hl, Except.map] at h
    | ok p =>
      simp only [hl, Except.map, Except.ok.injEq, Prod.mk.injEq] at h
      have := ih hl
      rw [← h.1, ← h.2]
      simp only [List.length_cons]
      omega
  | case4 c cs => cases h; simp
  | case5 c cs _ _ ih =>
    cases hl : letters cs with
    | error => simp [hl, Except.map] at h
    | ok p =>
      simp only [hl, Except.map, Except.ok.injEq, Prod.mk.injEq] at h
      have := ih hl
      rw [← h.1, ← h.2]
      simp only [List.length_cons]
      omega

theorem length_of_simpleName {s rest : List Char} {ls : List Letter} (h : simpleName s = .ok (ls, rest)) :
    rest.length < s.length := by
  unfold simpleName at h
  cases hl : letters s with
  | error => simp [hl, bind, Except.bind] at h
  | ok p =>
    simp only [hl, bind, Except.bind] at h
    split at h
    · cases h
    · next hne =>
      cases h
      have h1 := length_of_letters hl
      have h2 := length_dropWhileEnd_le (fun l : Letter => isBlank l.char) p.1
      have h3 := List.length_pos_iff.2 hne
      omega

/-- the nested types, each after a plus sign -/
def nestedNames (s : List Char) : Except Stop (List String × List Char) :=
  match s with
  | [] => .ok ([], [])
  | c :: cs =>
    if c = '+' then do
      let ⟨p, h⟩ ← attach (simpleName cs)
      have := length_of_simpleName h
      let q ← nestedNames p.2
      return (spell p.1 :: q.1, q.2)
    else .ok ([], c :: cs)
  termination_by s.length
  decreasing_by simp only [List.length_cons]; omega

theorem length_of_nestedNames {s rest : List Char} {ns : List String} (h : nestedNames s = .ok (ns, rest)) :
    rest.length ≤ s.length := by
  fun_induction nestedNames s generalizing ns rest with
  | case1 => cases h; simp
  | case2 cs ih =>
    cases hp : attach (simpleName cs) with
    | error => simp [hp, bind, Except.bind] at h
    | ok p =>
      obtain ⟨p, hs⟩ := p
      have h1 := length_of_simpleName hs
      cases hq : nestedNames p.2 with
      | error => simp [hp, hq, bind, Except.bind] at h
      | ok q =>
        simp only [hp, hq, bind, Except.bind, pure, Except.pure, Except.ok.injEq, Prod.mk.injEq] at h
        have h2 := ih p hs hq
        rw [← h.2]
        simp only [List.length_cons]
        omega
  | case3 => cases h; simp

theorem length_of_decorations {rank : Option UInt32} {s rest : List Char} {suf : List Suffix}
    (h : decorations rank s = .ok (suf, rest)) : rest.length ≤ s.length := by
  induction s generalizing rank suf rest with
  | nil =>
    cases rank with
    | none => cases h; simp
    | some _ => cases h
  | cons c cs ih =>
    have through : ∀ {r : Option UInt32} {f : List Suffix → List Suffix},
        ((decorations r cs).map fun p => (f p.1, p.2)) = .ok (suf, rest) → rest.length ≤ (c :: cs).length := by
      intro r f h
      cases hd : decorations r cs with
      | error => simp [hd, Except.map] at h
      | ok p =>
        simp only [hd, Except.map, Except.ok.injEq, Prod.mk.injEq] at h
        have := ih hd
        rw [← h.2]
        simp only [List.length_cons]
        omega
    unfold decorations at h
    repeat' split at h
    all_goals first
      | exact through h
      | exact Nat.le_succ_of_le (ih h)
      | (cases h; exact Nat.le_refl _)
      | cases h

theorem length_of_qualifier {b : Bool} {s rest : List Char} {a : Option String} (h : qualifier b s = .ok (a, rest)) :
    rest.length ≤ s.length := by
  unfold qualifier at h
  split at h
  · cases h; simp
  · next c cs =>
    split at h
    · have hd := (List.dropWhile_sublist (l := cs) (fun d => decide (d ≠ ']'))).length_le
      cases b <;> simp only [Bool.false_eq_true, if_true, if_false] at h <;> split at h <;> cases h <;>
        simp only [List.length_cons, List.length_nil] <;> omega
    · cases h; simp

theorem length_of_closingBracket {s rest : List Char} (h : closingBracket s = .ok rest) : rest.length < s.length := by
  unfold closingBracket at h
  split at h
  · cases h
  · split at h
    · cases h; simp
    · cases h

mutual

/-- a type name without an assembly -/
def typeSpec (s : List Char) : Except Stop (Step s TypeName) := do
  let ⟨p, hp⟩ ← attach (simpleName (trimStart s))
  let ⟨q, hq⟩ ← attach (nestedNames p.2)
  have h1 : q.2.length < s.length := by
    have := length_of_simpleName hp
    have := length_of_nestedNames hq
    have := length_trimStart_le s
    omega
  let name := splitSpace p.1
  if name.2 = "" then .error ⟨.endsInSeparator, q.2⟩
  else
    let args : Step s (List TypeName) ←
      if opensArguments q.2 then do
        let a ← genericArgs q.2.tail
        pure ⟨a.value, a.rest, by have := a.shorter; have := List.length_tail (l := q.2); omega⟩
      else pure ⟨[], q.2, h1⟩
    let ⟨d, hd⟩ ← attach (suffixList args.rest)
    return ⟨⟨name.1, name.2, q.1, args.value, d.1, none⟩, d.2,
      Nat.lt_of_le_of_lt (length_of_decorations hd) args.shorter⟩
  termination_by 2 * s.length
  decreasing_by have := List.length_tail (l := q.2); omega

/-- generic arguments up to the bracket that closes them -/
def genericArgs (s : List Char) : Except Stop (Step s (List TypeName)) := do
  have hs := length_trimStart_le s
  let arg : Step s TypeName ←
    if (trimStart s).head? = some '[' then do
      have ht := List.length_tail (l := trimStart s)
      let t ← typeSpec (trimStart s).tail
      let ⟨a, ha⟩ ← attach (qualifier true (trimStart t.rest))
      let ⟨r, hr⟩ ← attach (closingBracket (trimStart a.2))
      pure ⟨{ t.value with assembly := a.1 }, r, by
        have := t.shorter
        have := length_trimStart_le t.rest
        have := length_of_qualifier ha
        have := length_trimStart_le a.2
        have := length_of_closingBracket hr
        omega⟩
    else typeSpec s
  have hr : (trimStart arg.rest).tail.length < s.length := by
    have := arg.shorter
    have := length_trimStart_le arg.rest
    have := List.length_tail (l := trimStart arg.rest)
    omega
  if (trimStart arg.rest).head? = some ',' then do
    let more ← genericArgs (trimStart arg.rest).tail
    return ⟨arg.value :: more.value, more.rest, Nat.lt_trans more.shorter hr⟩
  else if (trimStart arg.rest).head? = some ']' then return ⟨[arg.value], (trimStart arg.rest).tail, hr⟩
  else .error ⟨.unterminatedArguments, trimStart arg.rest⟩
  termination_by 2 * s.length + 1
  decreasing_by all_goals omega

end

/-- a whole text: a type name, and the assembly it may name -/
def parseChars (s : List Char) : Except Stop TypeName := do
  let t ← typeSpec s
  let q ← qualifier false (trimStart t.rest)
  match q.2 with
  | [] => return { t.value with assembly := q.1 }
  | c :: cs => .error ⟨.unexpected, c :: cs⟩

/-- reads a serialized type name -/
def parse (text : String) : Except Error TypeName :=
  (parseChars text.toList).mapError fun stop => .malformed (.typeName text (stop.fault text.length))

end FrameSymbols.TypeName
