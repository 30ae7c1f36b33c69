/-
Where a method comes from, at different import levels.

Which methods are candidates for a step method is a matter of the tables and of the level, and a wider level only adds
candidates (`stepSources_mono`). In a regular reader nothing else is in the way, since the members of the type around that
of a resolved method can be listed at every level. `wider_imports_keep` says what follows for members and for what was
recovered.
-/
import FrameSymbols.Proofs.Image.Grown
import FrameSymbols.Proofs.Module.ImportLevels
import FrameSymbols.Proofs.Provenance.StepSources

namespace FrameSymbols

namespace Provenance

def candidates : Provenance → Nat
  | .ordinary _ | .unproven _ => 0
  | .recovered _ => 1
  | .ambiguous _ n => n

def isOrdinary : Provenance → Bool
  | .ordinary _ => true
  | _ => false

theorem candidates_ofProven (x : MethodSymbol) (proven : List MethodSymbol) :
    (ofProven x proven).candidates = proven.length := by
  match proven with
  | [] | [_] | _ :: _ :: _ => rfl

theorem isOrdinary_ofProven (x : MethodSymbol) (proven : List MethodSymbol) :
    (ofProven x proven).isOrdinary = false := by
  match proven with
  | [] | [_] | _ :: _ :: _ => rfl

end Provenance

namespace LoadedModule

variable {m : LoadedModule} {narrow wide : ImportLevel}

/-- what declares a type does not depend on the level -/
theorem declaresAt_seenAt (m : LoadedModule) (level : ImportLevel) (t : TypeSymbol) :
    (m.seenAt level).declaresAt t = m.declaresAt t := rfl

/-- at a wider level no candidate is lost -/
theorem stepSources_mono (hle : narrow ≤ wide) (t : TypeSymbol) :
    ((m.seenAt narrow).stepSources t).Sublist ((m.seenAt wide).stepSources t) := by
  have hmethods : ∀ (level : ImportLevel) (origin : Origin),
      ((m.seenAt level).ownRow origin .typeDef).bind (m.seenAt level).reader.methodsOf =
        (m.ownRow origin .typeDef).bind m.reader.methodsOf := fun _ _ => rfl
  unfold stepSources
  simp only [declaresAt_seenAt, hmethods]
  cases stepSourceName? t with
  | none => exact List.Sublist.refl _
  | some name =>
    cases t.containing with
    | none => exact List.Sublist.refl _
    | some outer =>
      simp only
      cases (m.ownRow outer.origin .typeDef).bind m.reader.methodsOf with
      | error e => exact List.Sublist.refl _
      | ok run => exact (List.monotone_filter_right _ (showsMethod_mono hle name)).filter _

/-- a wider level keeps what was recovered, with at least as many candidates, and makes nothing ordinary -/
theorem provenance_widens (hr : m.reader.Regular) (hle : narrow ≤ wide) {token : Token} {x y : MethodSymbol}
    (hx : (((m.seenAt narrow).resolveMethod token).runFrom .empty).1 = .ok x)
    (hy : (((m.seenAt wide).resolveMethod token).runFrom .empty).1 = .ok y) (later later' : List Ask) :
    ∃ p q, (((m.seenAt narrow).provenance x).runFrom ((m.seenAt narrow).after (.method token :: later))).1 = .ok p ∧
      (((m.seenAt wide).provenance y).runFrom ((m.seenAt wide).after (.method token :: later'))).1 = .ok q ∧
      (p.isRecovered = true → q.isRecovered = true ∧ p.candidates ≤ q.candidates) ∧ p.isOrdinary = q.isOrdinary := by
  obtain rfl : x = y := by
    rw [resolveMethod_seenAt] at hx hy
    exact Except.ok.inj (hx.symm.trans hy)
  have hkx : ((m.seenAt narrow).after ([] ++ .method token :: later)).method? token = some x := remembered_of_resolved hx
  have hky : ((m.seenAt wide).after ([] ++ .method token :: later')).method? token = some x := remembered_of_resolved hy
  rw [List.nil_append] at hkx hky
  have hnarrow := provenance_regular (m := m.seenAt narrow) hr (after_coherent _ _) hkx
  have hwide := provenance_regular (m := m.seenAt wide) hr (after_coherent _ _) hky
  rcases hnarrow with ⟨hs, hp⟩ | ⟨hs, proven, hp, hshown, -⟩ <;>
    rcases hwide with ⟨hs', hq⟩ | ⟨hs', proven', hq, hshown', -⟩
  · exact ⟨_, _, hp, hq, nofun, rfl⟩
  · exact absurd hs hs'
  · exact absurd hs' hs
  · refine ⟨_, _, hp, hq, ?_⟩
    have hcount : proven.length ≤ proven'.length := by
      rw [← hshown.length_eq, ← hshown'.length_eq]
      exact (stepSources_mono hle x.containing).length_le
    rw [Provenance.isOrdinary_ofProven, Provenance.isOrdinary_ofProven, Provenance.isRecovered_ofProven,
      Provenance.isRecovered_ofProven, Provenance.candidates_ofProven, Provenance.candidates_ofProven]
    exact ⟨fun h => ⟨Nat.lt_of_lt_of_le h hcount, hcount⟩, rfl⟩

/-- **Wider imports lose nothing.** Take two views of one module, one at a wider level, and anything that was asked of
them before. If both tell the members of a name in a type, those of the first are among those of the second, in the same
order; for the nested types among them, rows with the same token must have the same name. In an image grown entry by entry,
take a method that fresh views resolve. If it is recovered at the first level, it is recovered at the second one, from at
least as many candidates, and it is ordinary at both levels or at none. -/
theorem wider_imports_keep {narrow wide : ImportLevel} (hle : narrow ≤ wide) :
    (∀ (m : LoadedModule) (asks asks' : List Ask) (t u : TypeSymbol) (name : String) (found found' : List Symbol),
      t.Rooted → u.Rooted → t.same u = true →
      (((m.seenAt narrow).members t name).runFrom ((m.seenAt narrow).after asks)).1 = .ok found →
      (((m.seenAt wide).members u name).runFrom ((m.seenAt wide).after asks')).1 = .ok found' →
      List.SublistForall₂ (fun x y => x.same y = true) (methodsAmong found) (methodsAmong found') ∧
        (m.reader.NamedByToken → List.SublistForall₂ (fun x y => x.same y = true) found found')) ∧
    ∀ (file : String) (id : ModuleId) (entries : List Image.Entry) (image : Image),
      image = ((Image.empty file id).addAll entries).1 → image.types.size < 2 ^ 24 → image.methods.size < 2 ^ 24 →
      ∀ (token : Token) (x y : MethodSymbol),
        (((image.view.seenAt narrow).resolveMethod token).runFrom .empty).1 = .ok x →
        (((image.view.seenAt wide).resolveMethod token).runFrom .empty).1 = .ok y →
        ∀ later later' : List Ask, ∃ p q,
          (((image.view.seenAt narrow).provenance x).runFrom
            ((image.view.seenAt narrow).after (.method token :: later))).1 = .ok p ∧
          (((image.view.seenAt wide).provenance y).runFrom
            ((image.view.seenAt wide).after (.method token :: later'))).1 = .ok q ∧
          (p.isRecovered = true → q.isRecovered = true ∧ p.candidates ≤ q.candidates) ∧
          p.isOrdinary = q.isOrdinary := by
  refine ⟨fun m asks asks' t u name found found' ht hu hsame hfound hfound' => ?_, ?_⟩
  · exact members_widen hle (after_coherent _ asks) (after_coherent _ asks') ht hu hsame hfound hfound'
  · rintro file id entries image rfl ht hm token x y hx hy later later'
    have hgrown := Image.grown_addAll (Image.grown_empty file id) entries ht hm
    exact provenance_widens (m := Image.view _) (hgrown.regular ht hm) hle hx hy later later'

/-- an iterator that two methods of one name declare, of which one is private -/
def overloaded : Image :=
  ((Image.empty "Sample.dll" ⟨.replicate 16 7⟩).addAll
    [.assembly "Sample", .type "Demo" "Program" 1, .method "Foo" 0x91, .method "Foo" 0x96,
      .nestedType (.ofParts .typeDef 1) "<Foo>d__0" 3, .method "MoveNext" 0x1E1,
      .attribute (.ofParts .methodDef 1) "System.Runtime.CompilerServices" "IteratorStateMachineAttribute"
        (some "Demo.Program+<Foo>d__0"),
      .attribute (.ofParts .methodDef 2) "System.Runtime.CompilerServices" "IteratorStateMachineAttribute"
        (some "Demo.Program+<Foo>d__0")]).1

def overloadedAt (level : ImportLevel) : LoadedModule := overloaded.view.seenAt level

def overloadedProgram : TypeSymbol :=
  .ofRow ⟨1, "Program", "Demo", 1, []⟩ (overloaded.view.originOf (.ofParts .typeDef 1)) none

/-- from outside only one of the two methods is told, and the step method is recovered from it; with every member both are
told, and the step method is still recovered -/
theorem wider_imports_keep_overloaded :
    (∃ found found', (((overloadedAt .publicOnly).members overloadedProgram "Foo").runFrom .empty).1 = .ok found ∧
      (((overloadedAt .all).members overloadedProgram "Foo").runFrom .empty).1 = .ok found' ∧
      found.length = 1 ∧ found'.length = 2 ∧ List.SublistForall₂ (fun x y => x.same y = true) found found') ∧
    ∃ x p q, (((overloadedAt .publicOnly).resolveMethod (.ofParts .methodDef 3)).runFrom .empty).1 = .ok x ∧
      (((overloadedAt .publicOnly).provenance x).runFrom
        ((overloadedAt .publicOnly).after [.method (.ofParts .methodDef 3)])).1 = .ok p ∧
      (((overloadedAt .all).provenance x).runFrom
        ((overloadedAt .all).after [.method (.ofParts .methodDef 3)])).1 = .ok q ∧
      p.candidates = 1 ∧ q.isRecovered = true ∧ 1 ≤ q.candidates := by
  have hlevels : ImportLevel.publicOnly ≤ .all := by decide
  obtain ⟨hmembers, hsources⟩ := wider_imports_keep hlevels
  constructor
  · have hone : (((overloadedAt .publicOnly).members overloadedProgram "Foo").runFrom .empty).1.toOption.map
        List.length = some 1 := by decide +kernel
    have htwo : (((overloadedAt .all).members overloadedProgram "Foo").runFrom .empty).1.toOption.map
        List.length = some 2 := by decide +kernel
    obtain ⟨found, hfound, hlength⟩ := Option.map_eq_some_iff.1 hone
    obtain ⟨found', hfound', hlength'⟩ := Option.map_eq_some_iff.1 htwo
    have hfound := Except.eq_ok_of_toOption hfound
    have hfound' := Except.eq_ok_of_toOption hfound'
    have hbounded : overloaded.view.reader.Bounded := Image.bounded_of_size (by decide) (by decide)
    exact ⟨found, found', hfound, hfound', hlength, hlength',
      (hmembers overloaded.view [] [] _ _ "Foo" found found' (TypeSymbol.rooted_ofRow _ _ _)
        (TypeSymbol.rooted_ofRow _ _ _) overloadedProgram.same_refl hfound hfound').2 hbounded.boundedTypes.namedByToken⟩
  · have hrecovered : (((overloadedAt .publicOnly).resolveMethod (.ofParts .methodDef 3) >>=
        (overloadedAt .publicOnly).provenance).runFrom .empty).1.toOption.map (fun p => (p.isRecovered, p.candidates)) =
          some (true, 1) := by decide +kernel
    rw [Action.runFrom_bind] at hrecovered
    rcases hrun : ((overloadedAt .publicOnly).resolveMethod (.ofParts .methodDef 3)).runFrom .empty with ⟨e | x, memory⟩
    · rw [hrun] at hrecovered
      cases hrecovered
    · rw [hrun] at hrecovered
      obtain ⟨p, hp, hcounts⟩ := Option.map_eq_some_iff.1 hrecovered
      obtain ⟨hpr, hpc⟩ := Prod.mk.inj hcounts
      have hp := Except.eq_ok_of_toOption hp
      have hmemory : (overloadedAt .publicOnly).after [.method (.ofParts .methodDef 3)] = memory := congrArg Prod.snd hrun
      have hx := congrArg Prod.fst hrun
      have hy : (((overloadedAt .all).resolveMethod (.ofParts .methodDef 3)).runFrom .empty).1 = .ok x := by
        rw [overloadedAt, resolveMethod_seenAt] at hx ⊢
        exact hx
      obtain ⟨p', q, hp', hq, hkeeps, -⟩ :=
        hsources "Sample.dll" _ _ overloaded rfl (by decide) (by decide) _ x x hx hy [] []
      obtain rfl : p = p' := by
        rw [← hmemory] at hp
        exact Except.ok.inj (hp.symm.trans hp')
      obtain ⟨hqr, hqc⟩ := hkeeps hpr
      exact ⟨x, p, q, rfl, hp', hq, hpc, hqr, by rw [← hpc]; exact hqc⟩

def rowsHeader : ModuleRow := ⟨"Rows.dll", ⟨.replicate 16 7⟩⟩

/-- a private type and a public one, nested in the first; the row of the public one does not fit into a token, and what is
left of it is the row of the private one -/
def aliased : Tables where
  header := .ok rowsHeader
  assembly := none
  files := []
  rowCount := fun table => if table = .typeDef then 0x1000002 else 0
  typeRow := fun row =>
    if row = 1 then .ok ⟨1, "Outer", "", 1, []⟩
    else if row = 2 then .ok ⟨3, "A", "", 1, []⟩
    else if row = 0x1000002 then .ok ⟨2, "B", "", 1, []⟩
    else .error (.malformed (.reported "no such type"))
  methodRow := fun row => .error (.malformed (.rowMissing .methodDef row 0))
  encloser := fun row => if row = 2 ∨ row = 0x1000002 then some 1 else none
  nestedIn := fun row => if row = 1 then [2, 0x1000002] else []
  attributes := fun _ => []

/-- an iterator, beside a private type that has the name of its method and is nested in a type that is missing -/
def damaged : Tables where
  header := .ok rowsHeader
  assembly := none
  files := []
  rowCount := fun table => if table = .typeDef then 3 else if table = .methodDef then 2 else 0
  typeRow := fun row =>
    if row = 1 then .ok ⟨1, "Program", "Demo", 1, []⟩
    else if row = 2 then .ok ⟨3, "<Foo>d__0", "", 2, []⟩
    else if row = 3 then .ok ⟨3, "Foo", "", 3, []⟩
    else .error (.malformed (.rowMissing .typeDef row 3))
  methodRow := fun row =>
    if row = 1 then .ok ⟨0x96, "Foo", []⟩
    else if row = 2 then .ok ⟨0x1E1, "MoveNext", []⟩
    else .error (.malformed (.rowMissing .methodDef row 2))
  encloser := fun row => if row = 2 then some 1 else if row = 3 then some 9 else none
  nestedIn := fun row => if row = 1 then [2, 3] else []
  attributes := fun parent =>
    if parent = .ofParts .methodDef 1 then
      (Blob.ofArgument (some "Demo.Program+<Foo>d__0")).toOption.toList.map fun value =>
        ⟨parent, "System.Runtime.CompilerServices", "IteratorStateMachineAttribute", value⟩
    else []

def rowsAt (tables : Tables) (level : ImportLevel) : LoadedModule :=
  .ofHeader tables.reader rowsHeader level

/-- the members of a name in the first type -/
def firstMembers (m : LoadedModule) (name : String) : Except Error (List Symbol) :=
  ((m.resolveType (.ofParts .typeDef 1) >>= (m.members · name)).runFrom .empty).1

/-- where the second method comes from -/
def secondProvenance (m : LoadedModule) : Except Error Provenance :=
  ((m.resolveMethod (.ofParts .methodDef 2) >>= m.provenance).runFrom .empty).1

/-- with every member told, the public type is lost, since the private one is remembered under its token; and a private
member that cannot be decoded takes the others with it, and the recovered method too -/
theorem wider_imports_can_lose :
    ((firstMembers (rowsAt aliased .publicOnly) "B").toOption.map (·.map Symbol.name) = some ["B"] ∧
      (firstMembers (rowsAt aliased .all) "B").toOption.map (·.map Symbol.name) = some []) ∧
    ((firstMembers (rowsAt damaged .publicOnly) "Foo").toOption.map (·.map Symbol.name) = some ["Foo"] ∧
      (firstMembers (rowsAt damaged .all) "Foo").toOption.map (·.map Symbol.name) = none) ∧
    (secondProvenance (rowsAt damaged .publicOnly)).toOption.map (·.isRecovered) = some true ∧
      (secondProvenance (rowsAt damaged .all)).toOption.map (·.isRecovered) = some false := by
  refine ⟨⟨?_, ?_⟩, ⟨?_, ?_⟩, ?_, ?_⟩ <;> decide +kernel

end LoadedModule

end FrameSymbols
