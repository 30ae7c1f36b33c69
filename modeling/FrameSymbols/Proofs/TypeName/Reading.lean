/-
What reading a type name and its arguments does, step by step.

A reader gives back what it read together with a proof that the rest is shorter. `readType` and `readArgs` are the readers
without the proof, and `readType_eq`, `readArgs_eq` and `parseChars_eq` say which steps they take, whether these succeed
or fail. `ReadsType` and `ReadsArgs` say that a reader succeeds, and `readsType_iff`, `readsArgs_iff` and
`parseChars_eq_ok_iff` take them apart into the steps that have to succeed. The texts that are read back, the names that
can be read at all and the way of a reader through its text are derived from these.
-/
import FrameSymbols.TypeName.Parse

namespace FrameSymbols.TypeName

open Text

/-! ## Readers -/

/-- a type name is read from `s`, and `rest` is left -/
def ReadsType (s : List Char) (n : TypeName) (rest : List Char) : Prop :=
  ∃ t, typeSpec s = .ok t ∧ t.value = n ∧ t.rest = rest

/-- generic arguments and the bracket that closes them are read from `s`, and `rest` is left -/
def ReadsArgs (s : List Char) (args : List TypeName) (rest : List Char) : Prop :=
  ∃ a, genericArgs s = .ok a ∧ a.value = args ∧ a.rest = rest

/-- the generic arguments after a name, if a bracket opens them -/
def ReadsArgsAfter (s : List Char) (args : List TypeName) (rest : List Char) : Prop :=
  if opensArguments s then ReadsArgs s.tail args rest else args = [] ∧ rest = s

/-- one generic argument, in brackets of its own or not -/
def ReadsArg (s : List Char) (arg : TypeName) (rest : List Char) : Prop :=
  if (trimStart s).head? = some '[' then
    ∃ n r assembly r', ReadsType (trimStart s).tail n r ∧ qualifier true (trimStart r) = .ok (assembly, r') ∧
      closingBracket (trimStart r') = .ok rest ∧ arg = { n with assembly }
  else ReadsType s arg rest

def Step.parts {s : List Char} {α : Type} (t : Step s α) : α × List Char := (t.value, t.rest)

def readType (s : List Char) : Except Stop (TypeName × List Char) := (typeSpec s).map Step.parts

def readArgs (s : List Char) : Except Stop (List TypeName × List Char) := (genericArgs s).map Step.parts

def readArgsAfter (s : List Char) : Except Stop (List TypeName × List Char) :=
  if opensArguments s then readArgs s.tail else .ok ([], s)

def readArg (s : List Char) : Except Stop (TypeName × List Char) :=
  if (trimStart s).head? = some '[' then do
    let t ← readType (trimStart s).tail
    let q ← qualifier true (trimStart t.2)
    let r ← closingBracket (trimStart q.2)
    return ({ t.1 with assembly := q.1 }, r)
  else readType s

theorem bind_eq_ok_iff {ε α β : Type} {x : Except ε α} {f : α → Except ε β} {b : β} :
    x >>= f = .ok b ↔ ∃ a, x = .ok a ∧ f a = .ok b := by
  cases x with
  | error e => simp [bind, Except.bind]
  | ok a => simp [bind, Except.bind]

theorem map_eq_ok_iff {ε α β : Type} {x : Except ε α} {f : α → β} {b : β} :
    x.map f = .ok b ↔ ∃ a, x = .ok a ∧ f a = b := by
  cases x with
  | error e => simp [Except.map]
  | ok a => simp [Except.map]

theorem attach_bind_eq_ok_iff {ε α β : Type} {x : Except ε α} {f : { a : α // x = .ok a } → Except ε β} {b : β} :
    attach x >>= f = .ok b ↔ ∃ a, ∃ h : x = .ok a, f ⟨a, h⟩ = .ok b := by
  cases x with
  | error e => simp [attach, bind, Except.bind]
  | ok a => simp [attach, bind, Except.bind]

theorem map_attach_bind_eq {ε α β γ : Type} {x : Except ε α} {f : { a : α // x = .ok a } → Except ε β} {g : β → γ}
    {h : α → Except ε γ} (hf : ∀ a ha, (f ⟨a, ha⟩).map g = h a) : (attach x >>= f).map g = x >>= h := by
  cases x with
  | error e => rfl
  | ok a => exact hf a rfl

theorem attach_bind_eq {ε α β : Type} {x : Except ε α} {f : { a : α // x = .ok a } → Except ε β} {g : α → Except ε β}
    (hf : ∀ a ha, f ⟨a, ha⟩ = g a) : attach x >>= f = x >>= g := by
  cases x with
  | error e => rfl
  | ok a => exact hf a rfl

/-! ## Steps -/

theorem nestedNames_plus (cs : List Char) : nestedNames ('+' :: cs) = do
    let name ← simpleName cs
    let more ← nestedNames name.2
    return (spell name.1 :: more.1, more.2) := by
  rw [nestedNames, if_pos rfl]
  exact attach_bind_eq fun name hname => rfl

theorem nestedNames_of_head {s : List Char} (h : s.head? ≠ some '+') : nestedNames s = .ok ([], s) := by
  cases s with
  | nil => rw [nestedNames]
  | cons c cs => rw [nestedNames, if_neg fun hc => h (by rw [hc]; rfl)]

theorem readType_eq (s : List Char) : readType s = do
    let name ← simpleName (trimStart s)
    let nested ← nestedNames name.2
    if (splitSpace name.1).2 = "" then .error ⟨.endsInSeparator, nested.2⟩
    else
      let args ← readArgsAfter nested.2
      let suffixes ← suffixList args.2
      return (⟨(splitSpace name.1).1, (splitSpace name.1).2, nested.1, args.1, suffixes.1, none⟩, suffixes.2) := by
  rw [readType, typeSpec]
  refine map_attach_bind_eq fun name hname => map_attach_bind_eq fun nested hnested => ?_
  dsimp only
  split
  · rfl
  · unfold readArgsAfter readArgs
    split
    · cases genericArgs nested.2.tail with
      | error stop => rfl
      | ok args => exact map_attach_bind_eq fun suffixes hsuffixes => rfl
    · exact map_attach_bind_eq fun suffixes hsuffixes => rfl

/-- after an argument there are more behind a comma, or the closing bracket -/
theorem readArgs_eq (s : List Char) : readArgs s = (do
    let arg ← readArg s
    if (trimStart arg.2).head? = some ',' then do
      let more ← readArgs (trimStart arg.2).tail
      return (arg.1 :: more.1, more.2)
    else if (trimStart arg.2).head? = some ']' then return ([arg.1], (trimStart arg.2).tail)
    else .error ⟨.unterminatedArguments, trimStart arg.2⟩) := by
  have hbehind : ∀ (arg : TypeName) (rest : List Char) (hr : (trimStart rest).tail.length < s.length),
      (if (trimStart rest).head? = some ',' then do
        let more ← genericArgs (trimStart rest).tail
        return ⟨arg :: more.value, more.rest, Nat.lt_trans more.shorter hr⟩
      else if (trimStart rest).head? = some ']' then return ⟨[arg], (trimStart rest).tail, hr⟩
      else .error ⟨.unterminatedArguments, trimStart rest⟩ : Except Stop (Step s (List TypeName))).map Step.parts =
      if (trimStart rest).head? = some ',' then do
        let more ← readArgs (trimStart rest).tail
        return (arg :: more.1, more.2)
      else if (trimStart rest).head? = some ']' then return ([arg], (trimStart rest).tail)
      else .error ⟨.unterminatedArguments, trimStart rest⟩ := by
    intro arg rest hr
    split
    · unfold readArgs
      cases genericArgs (trimStart rest).tail <;> rfl
    · split <;> rfl
  rw [readArgs, genericArgs]
  unfold readArg readType
  split
  · simp only [bind_assoc, pure_bind]
    cases typeSpec (trimStart s).tail with
    | error stop => rfl
    | ok t => exact map_attach_bind_eq fun q hq => map_attach_bind_eq fun r hr => hbehind _ r _
  · cases typeSpec s with
    | error stop => rfl
    | ok t => exact hbehind t.value t.rest _

theorem parseChars_eq (s : List Char) : parseChars s = (do
    let t ← readType s
    let q ← qualifier false (trimStart t.2)
    match q.2 with
    | [] => return { t.1 with assembly := q.1 }
    | c :: cs => .error ⟨.unexpected, c :: cs⟩) := by
  unfold parseChars readType
  cases typeSpec s <;> rfl

/-! ## Steps that have to succeed -/

theorem readsType_iff_readType {s rest : List Char} {n : TypeName} :
    ReadsType s n rest ↔ readType s = .ok (n, rest) := by
  rw [readType, map_eq_ok_iff]
  simp only [ReadsType, Step.parts, Prod.mk.injEq]

theorem readsArgs_iff_readArgs {s rest : List Char} {args : List TypeName} :
    ReadsArgs s args rest ↔ readArgs s = .ok (args, rest) := by
  rw [readArgs, map_eq_ok_iff]
  simp only [ReadsArgs, Step.parts, Prod.mk.injEq]

theorem readsArgsAfter_iff_readArgsAfter {s rest : List Char} {args : List TypeName} :
    ReadsArgsAfter s args rest ↔ readArgsAfter s = .ok (args, rest) := by
  unfold ReadsArgsAfter readArgsAfter
  split
  · exact readsArgs_iff_readArgs
  · simp [eq_comm]

theorem readsArg_iff_readArg {s rest : List Char} {arg : TypeName} :
    ReadsArg s arg rest ↔ readArg s = .ok (arg, rest) := by
  unfold ReadsArg readArg
  split
  · simp only [readsType_iff_readType, bind_eq_ok_iff, Prod.exists]
    constructor
    · rintro ⟨n, r, assembly, r', ht, hq, hc, rfl⟩
      exact ⟨n, r, ht, assembly, r', hq, rest, hc, rfl⟩
    · rintro ⟨n, r, ht, assembly, r', hq, rest', hc, h⟩
      cases h
      exact ⟨n, r, assembly, r', ht, hq, hc, rfl⟩
  · exact readsType_iff_readType

theorem readsType_iff {s rest : List Char} {n : TypeName} :
    ReadsType s n rest ↔ ∃ ls r names r' args r'' suffixes, simpleName (trimStart s) = .ok (ls, r) ∧
      nestedNames r = .ok (names, r') ∧ (splitSpace ls).2 ≠ "" ∧ ReadsArgsAfter r' args r'' ∧
      suffixList r'' = .ok (suffixes, rest) ∧
      n = ⟨(splitSpace ls).1, (splitSpace ls).2, names, args, suffixes, none⟩ := by
  simp only [readsType_iff_readType, readsArgsAfter_iff_readArgsAfter, readType_eq, bind_eq_ok_iff, Prod.exists]
  constructor
  · rintro ⟨ls, r, hp, names, r', hq, h⟩
    split at h
    · cases h
    · next htop =>
      obtain ⟨⟨args, r''⟩, ha, h⟩ := bind_eq_ok_iff.1 h
      obtain ⟨⟨suffixes, r'''⟩, hd, h⟩ := bind_eq_ok_iff.1 h
      cases h
      exact ⟨ls, r, names, r', args, r'', suffixes, hp, hq, htop, ha, hd, rfl⟩
  · rintro ⟨ls, r, names, r', args, r'', suffixes, hp, hq, htop, ha, hd, rfl⟩
    refine ⟨ls, r, hp, names, r', hq, ?_⟩
    rw [if_neg htop]
    exact bind_eq_ok_iff.2 ⟨_, ha, bind_eq_ok_iff.2 ⟨_, hd, rfl⟩⟩

theorem readsArgs_iff {s rest : List Char} {args : List TypeName} :
    ReadsArgs s args rest ↔ ∃ arg r, ReadsArg s arg r ∧
      (((trimStart r).head? = some ',' ∧ ∃ more, ReadsArgs (trimStart r).tail more rest ∧ args = arg :: more) ∨
        (trimStart r).head? = some ']' ∧ args = [arg] ∧ rest = (trimStart r).tail) := by
  simp only [readsArgs_iff_readArgs, readsArg_iff_readArg]
  rw [readArgs_eq]
  simp only [bind_eq_ok_iff, Prod.exists]
  refine exists_congr fun arg => exists_congr fun r => and_congr_right fun _ => ?_
  by_cases hcomma : (trimStart r).head? = some ','
  · simp only [hcomma, if_true, bind_eq_ok_iff, pure, Except.pure, Except.ok.injEq, Prod.exists, Prod.mk.injEq]
    simp [eq_comm]
  · by_cases hclose : (trimStart r).head? = some ']'
    · simp [hclose, pure, Except.pure, eq_comm]
    · simp [hcomma, hclose]

theorem ReadsType.shorter {s rest : List Char} {n : TypeName} (h : ReadsType s n rest) : rest.length < s.length := by
  obtain ⟨t, -, -, rfl⟩ := h
  exact t.shorter

theorem ReadsArgs.shorter {s rest : List Char} {args : List TypeName} (h : ReadsArgs s args rest) :
    rest.length < s.length := by
  obtain ⟨a, -, -, rfl⟩ := h
  exact a.shorter

theorem ReadsArg.shorter {s rest : List Char} {arg : TypeName} (h : ReadsArg s arg rest) : rest.length < s.length := by
  unfold ReadsArg at h
  split at h
  · obtain ⟨n, r, assembly, r', ht, hq, hc, -⟩ := h
    have := ht.shorter
    have := length_trimStart_le s
    have := List.length_tail (l := trimStart s)
    have := length_trimStart_le r
    have := length_of_qualifier hq
    have := length_trimStart_le r'
    have := length_of_closingBracket hc
    omega
  · exact h.shorter

theorem parseChars_eq_ok_iff {s : List Char} {n : TypeName} :
    parseChars s = .ok n ↔ ∃ t r assembly, ReadsType s t r ∧ qualifier false (trimStart r) = .ok (assembly, []) ∧
      n = { t with assembly } := by
  simp only [parseChars_eq, readsType_iff_readType, bind_eq_ok_iff, Prod.exists]
  constructor
  · rintro ⟨t, r, ht, assembly, rest, hq, h⟩
    cases rest with
    | nil =>
      cases h
      exact ⟨t, r, assembly, ht, hq, rfl⟩
    | cons c cs => cases h
  · rintro ⟨t, r, assembly, ht, hq, rfl⟩
    exact ⟨t, r, ht, assembly, [], hq, rfl⟩

theorem parse_eq_ok_iff {text : String} {n : TypeName} : parse text = .ok n ↔ parseChars text.toList = .ok n := by
  unfold parse
  constructor <;> intro h
  · cases hc : parseChars text.toList with
    | error stop => rw [hc] at h; cases h
    | ok m => rw [hc] at h; cases h; rfl
  · rw [h]
    rfl

end FrameSymbols.TypeName
