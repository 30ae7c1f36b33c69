/-
A machine that reads a type name at positions of its text.

A machine knows its position, what it is about to read, and the types in the middle of whose generic arguments it is. Each
step looks at the character at the position; a run ends with a type name or with a fault.
-/
import FrameSymbols.Proofs.TypeName.Reading

namespace FrameSymbols.TypeName

open Text

/-! ## Depth -/

mutual

/-- how deep generic arguments are nested in a type name -/
def depth : TypeName → Nat
  | ⟨_, _, _, args, _, _⟩ => argsDepth args

/-- how deep they are nested in a list of arguments, which counts as one level itself -/
def argsDepth : List TypeName → Nat
  | [] => 0
  | arg :: args => max (depth arg + 1) (argsDepth args)

end

theorem depth_eq (n : TypeName) : n.depth = argsDepth n.args := by
  cases n
  rw [depth]

theorem argsDepth_append (args more : List TypeName) : argsDepth (args ++ more) = max (argsDepth args) (argsDepth more) := by
  induction args with
  | nil => simp [argsDepth]
  | cons arg args ih => rw [List.cons_append, argsDepth, ih, argsDepth, Nat.max_assoc]

def withArg (outer arg : TypeName) : TypeName := { outer with args := outer.args ++ [arg] }

theorem depth_withArg (outer arg : TypeName) : (outer.withArg arg).depth = max outer.depth (arg.depth + 1) := by
  rw [depth_eq, depth_eq outer, withArg, argsDepth_append]
  simp [argsDepth]

theorem depth_withAssembly (n : TypeName) (assembly : Option String) : depth { n with assembly } = n.depth := by
  rw [depth_eq, depth_eq n]

def withSuffix (read : TypeName) (s : Suffix) : TypeName := { read with suffixes := read.suffixes ++ [s] }

theorem depth_withSuffix (read : TypeName) (s : Suffix) : (read.withSuffix s).depth = read.depth := by
  rw [depth_eq, depth_eq read, withSuffix]

/-! ## Machines -/

/-- a type whose generic arguments are being read, and whether the one at hand stands in brackets of its own -/
structure Frame where
  outer : TypeName
  bracketed : Bool

/-- what a machine is about to read -/
inductive Phase where
  /-- a generic argument -/
  | argument (outer : TypeName)
  /-- a type name -/
  | type
  /-- a letter of the name that began at `start`; it is nested in `outer`, if there is one -/
  | letter (outer : Option TypeName) (start : Nat) (letters : List Letter)
  /-- what follows a name: a nested one, or generic arguments -/
  | behind (read : TypeName)
  /-- a decoration; `rank` counts the indices of brackets that are open -/
  | suffix (read : TypeName) (rank : Option UInt32)
  /-- the comma before an assembly -/
  | comma (read : TypeName)
  /-- a character of the assembly that began at `start` -/
  | assembly (read : TypeName) (start : Nat)
  /-- the end of a name and its assembly -/
  | closing (read : TypeName)
  /-- what follows a generic argument: another one, or the end of the arguments -/
  | separator (outer : TypeName)

/-- a reader in the middle of a text; the innermost type whose arguments are being read comes first -/
structure Machine where
  position : Nat
  phase : Phase
  stack : List Frame

/-- what a step comes to -/
inductive Next where
  | goto (m : Machine)
  | halt (outcome : Except Fault TypeName)

/-- the first name of a type, or one nested in `outer` -/
def named (outer : Option TypeName) (name : List Letter) : TypeName :=
  match outer with
  | none => ⟨(splitSpace name).1, (splitSpace name).2, [], [], [], none⟩
  | some outer => { outer with nested := outer.nested ++ [spell name] }

theorem depth_named (outer : Option TypeName) (name : List Letter) :
    (named outer name).depth = outer.elim 0 depth := by
  cases outer with
  | none => simp [named, depth, argsDepth]
  | some outer => rw [named, depth_eq, Option.elim_some, depth_eq outer]

/-- the machine behind a type name: an argument without brackets of its own has no assembly -/
def returned (read : TypeName) (position : Nat) : List Frame → Machine
  | [] => ⟨position, .comma read, []⟩
  | f :: stack =>
    if f.bracketed then ⟨position, .comma read, f :: stack⟩ else ⟨position, .separator (f.outer.withArg read), stack⟩

namespace Machine

def start : Machine := ⟨0, .type, []⟩

section Steps

variable (chars : List Char) (p : Nat) (stack : List Frame)

def fault (cause : Cause) (position : Nat) : Next := .halt (.error ⟨cause, position, chars[position]?⟩)

/-- whether there is a character at the position that is passed over -/
def passes (f : Char → Bool) : Bool := chars[p]?.any f

/-- a generic argument, in brackets of its own or not -/
def stepArgument (outer : TypeName) : Next :=
  if passes chars p isBlank then .goto ⟨p + 1, .argument outer, stack⟩
  else if chars[p]? = some '[' then .goto ⟨p + 1, .type, ⟨outer, true⟩ :: stack⟩
  else .goto ⟨p, .type, ⟨outer, false⟩ :: stack⟩

def stepType : Next :=
  if passes chars p isBlank then .goto ⟨p + 1, .type, stack⟩ else .goto ⟨p, .letter none p [], stack⟩

/-- a name is what is left of its letters without the blanks at the end -/
def endName (outer : Option TypeName) (start : Nat) (letters : List Letter) : Next :=
  let name := dropWhileEnd (fun l => isBlank l.char) letters
  if name = [] then fault chars .emptyName start else .goto ⟨p, .behind (named outer name), stack⟩

def stepLetter (outer : Option TypeName) (start : Nat) (letters : List Letter) : Next :=
  match chars[p]? with
  | none => endName chars p stack outer start letters
  | some c =>
    if c = '\\' then
      match chars[p + 1]? with
      | none => fault chars .danglingEscape (p + 1)
      | some e => .goto ⟨p + 2, .letter outer start (letters ++ [⟨e, true⟩]), stack⟩
    else if isDelimiter c then endName chars p stack outer start letters
    else .goto ⟨p + 1, .letter outer start (letters ++ [⟨c, false⟩]), stack⟩

def stepBehind (read : TypeName) : Next :=
  if chars[p]? = some '+' then .goto ⟨p + 1, .letter (some read) (p + 1) [], stack⟩
  else if read.top = "" then fault chars .endsInSeparator p
  else if opensArguments (chars.drop p) then .goto ⟨p + 1, .argument read, stack⟩
  else .goto ⟨p, .suffix read none, stack⟩

def stepSuffix (read : TypeName) (rank : Option UInt32) : Next :=
  match rank with
  | none =>
    if chars[p]? = some '*' then .goto ⟨p + 1, .suffix (read.withSuffix .pointer) none, stack⟩
    else if chars[p]? = some '&' then .goto ⟨p + 1, .suffix (read.withSuffix .byRef) none, stack⟩
    else if chars[p]? = some '[' then .goto ⟨p + 1, .suffix read (some 1), stack⟩
    else .goto (returned read p stack)
  | some n =>
    if chars[p]? = some ',' then .goto ⟨p + 1, .suffix read (some (n + 1)), stack⟩
    else if chars[p]? = some '*' then .goto ⟨p + 1, .suffix read (some n), stack⟩
    else if chars[p]? = some ']' then .goto ⟨p + 1, .suffix (read.withSuffix (.ofRank n)) none, stack⟩
    else fault chars .unterminatedRank p

def stepComma (read : TypeName) : Next :=
  if passes chars p isBlank then .goto ⟨p + 1, .comma read, stack⟩
  else if chars[p]? = some ',' then .goto ⟨p + 1, .assembly read (p + 1), stack⟩
  else .goto ⟨p, .closing read, stack⟩

/-- the assembly of an argument ends before the bracket that closes the argument -/
def stepAssembly (read : TypeName) (start : Nat) : Next :=
  if passes chars p fun c => stack.isEmpty || c ≠ ']' then .goto ⟨p + 1, .assembly read start, stack⟩
  else
    let name := trim ((chars.take p).drop start)
    if name = [] then fault chars .emptyAssembly start
    else .goto ⟨p, .closing { read with assembly := some (String.ofList name) }, stack⟩

def stepClosing (read : TypeName) : Next :=
  match stack with
  | [] => if p = chars.length then .halt (.ok read) else fault chars .unexpected p
  | f :: stack =>
    if passes chars p isBlank then .goto ⟨p + 1, .closing read, f :: stack⟩
    else if chars[p]? = some ']' then .goto ⟨p + 1, .separator (f.outer.withArg read), stack⟩
    else fault chars .missingBracket p

def stepSeparator (outer : TypeName) : Next :=
  if passes chars p isBlank then .goto ⟨p + 1, .separator outer, stack⟩
  else if chars[p]? = some ',' then .goto ⟨p + 1, .argument outer, stack⟩
  else if chars[p]? = some ']' then .goto ⟨p + 1, .suffix outer none, stack⟩
  else fault chars .unterminatedArguments p

def step (m : Machine) : Next :=
  match m.phase with
  | .argument outer => stepArgument chars m.position m.stack outer
  | .type => stepType chars m.position m.stack
  | .letter outer start letters => stepLetter chars m.position m.stack outer start letters
  | .behind read => stepBehind chars m.position m.stack read
  | .suffix read rank => stepSuffix chars m.position m.stack read rank
  | .comma read => stepComma chars m.position m.stack read
  | .assembly read start => stepAssembly chars m.position m.stack read start
  | .closing read => stepClosing chars m.position m.stack read
  | .separator outer => stepSeparator chars m.position m.stack outer

/-- what a run of at most `fuel` steps comes to, if it stops -/
def run : Nat → Machine → Option (Except Fault TypeName)
  | 0, _ => none
  | fuel + 1, m =>
    match m.step chars with
    | .goto next => run fuel next
    | .halt outcome => some outcome

end Steps

end Machine

end FrameSymbols.TypeName
