/-
The blobs that hold an argument.

A blob without a text is the prolog and the mark of no text; one with a text has the prolog, a compressed form of the
text's length and the text in UTF-8. Anything may follow. Writing such a blob and reading it are settled apart: from what
a text was read of (`spelled_of_text`, `prolog_of_argument`) and from what a text is read of (`takes_text`). The two meet
in `argument_format`, which also says that reading never leaves the blob.
-/
import FrameSymbols.Proofs.Blob.Compressed
import FrameSymbols.Proofs.Blob.Words

namespace FrameSymbols

namespace Read

/-- the octets that a text or its absence was read of -/
theorem spelled_of_text {c after : Cursor} {value : Option String} (h : text?.runFrom c = (.ok value, after)) :
    (value = none ∧ ∃ more, c.rest = noText :: more) ∨
    ∃ s form more, value = some s ∧ Blob.Compressed form (Utf8.encode s).length ∧
      c.rest = form ++ (Utf8.encode s ++ more) := by
  unfold text? at h
  obtain ⟨lead, between, hpeek, hread⟩ := Action.of_bind h
  obtain ⟨rfl, more, hrest⟩ := of_peek hpeek
  split at hread
  · next hnone =>
    cases hread
    exact .inl ⟨rfl, more, by rw [hrest, hnone]⟩
  · obtain ⟨length, behind, hlength, hread⟩ := Action.of_bind hread
    obtain ⟨form, ⟨left, hform⟩, rfl, hcompressed⟩ := compressed_of_read hlength
    obtain ⟨start, _, ⟨⟩, hread⟩ := Action.of_bind hread
    obtain ⟨bs, behind, hoctets, hread⟩ := Action.of_bind hread
    obtain ⟨hthere, rfl, rfl⟩ := of_octets hoctets
    rw [← Cursor.length_rest, Cursor.rest_advance, ← hform, List.drop_left] at hthere
    rw [Cursor.rest_advance, ← hform, List.drop_left] at hread
    cases hdecode : Utf8.decode (left.take length) with
    | error fault =>
      rw [hdecode] at hread
      cases hread
    | ok s =>
      rw [hdecode] at hread
      cases hread
      have htext := Utf8.eq_encode_of_decode hdecode
      have hcount : (Utf8.encode s).length = length := by rw [← htext, List.length_take, Nat.min_eq_left hthere]
      exact .inr ⟨s, form, left.drop length, rfl, hcount ▸ hcompressed, by
        rw [← htext, List.take_append_drop, hform]⟩

end Read

namespace Blob

/-- an argument is only found behind the prolog -/
theorem prolog_of_argument {blob : List UInt8} {value : Option String} (h : argument blob = .ok value) :
    ∃ bs, blob = 1 :: 0 :: bs := by
  rcases hrun : readArgument.runFrom (.start blob) with ⟨answer, after⟩
  obtain rfl : answer = .ok value := by rw [argument, hrun] at h; exact h
  obtain ⟨found, behind, hfound, hread⟩ := Action.of_bind hrun
  obtain ⟨bs, _, hoctets, ⟨⟩⟩ := Action.of_bind hfound
  obtain ⟨hthere, rfl, -⟩ := Read.of_octets hoctets
  rcases blob with _ | ⟨b0, _ | ⟨b1, bs⟩⟩
  · cases hthere
  · simp [IntegerForm.u16, Cursor.remaining, Cursor.start] at hthere
  · have hvalue : IntegerForm.u16.value ((Cursor.start (b0 :: b1 :: bs)).rest.take IntegerForm.u16.width) =
        b0.toNat + 256 * b1.toNat := by
      simp [IntegerForm.value, IntegerForm.u16, IntegerForm.littleEndian, Cursor.rest, Cursor.start]
    split at hread
    · next hprolog =>
      have hb0 := b0.toNat_lt
      rw [hvalue, prolog] at hprolog
      have hone : b0.toNat = 1 ∧ b1.toNat = 0 := by omega
      obtain rfl : b0 = 1 := UInt8.toNat_inj.1 hone.1
      obtain rfl : b1 = 0 := UInt8.toNat_inj.1 hone.2
      exact ⟨bs, rfl⟩
    · cases hread

def guardedArgument (limit : Nat) : Guarded (Option String) := do
  let found ← Guarded.integer limit .u16
  if found = prolog then
    let value ← Guarded.text? limit
    let _ ← Guarded.namedCount? limit
    return value
  else throw (.malformed (.prolog found.toNat.toUInt16))

theorem forward_readArgument : readArgument.Forward := by
  refine Read.forward_bind (Read.forward_integer .u16) fun found => ?_
  split
  · exact Read.forward_bind Read.forward_text fun value => Read.forward_bind Read.forward_namedCount fun _ =>
      Read.forward_pure value
  · exact Read.forward_throw _

theorem agrees_readArgument {limit : Nat} : Guarded.Agrees limit (guardedArgument limit) readArgument := by
  refine Guarded.agrees_bind (Guarded.agrees_integer .u16) (Read.forward_integer .u16) fun found => ?_
  split
  · exact Guarded.agrees_bind Guarded.agrees_text Read.forward_text fun value =>
      Guarded.agrees_bind Guarded.agrees_namedCount Read.forward_namedCount fun _ => Guarded.agrees_pure value
  · exact Guarded.agrees_throw _

theorem argument_eq_none_iff (blob : List UInt8) :
    argument blob = .ok none ↔ ∃ more, blob = [1, 0, Read.noText] ++ more := by
  constructor
  · intro h
    obtain ⟨bs, rfl⟩ := prolog_of_argument h
    rw [argument_prolog] at h
    rcases hrun : Read.text?.runFrom ⟨1 :: 0 :: bs, 2⟩ with ⟨answer, after⟩
    obtain rfl : answer = .ok none := by rw [hrun] at h; exact h
    obtain ⟨-, more, hmore⟩ | ⟨s, form, more, hvalue, -⟩ := Read.spelled_of_text hrun
    · exact ⟨more, by rw [show bs = Read.noText :: more from hmore]; rfl⟩
    · cases hvalue
  · rintro ⟨more, rfl⟩
    exact argument_prolog _

theorem argument_eq_some_iff (blob : List UInt8) (s : String) :
    argument blob = .ok (some s) ↔
      ∃ form more, Compressed form (Utf8.encode s).length ∧ blob = [1, 0] ++ form ++ Utf8.encode s ++ more := by
  constructor
  · intro h
    obtain ⟨bs, rfl⟩ := prolog_of_argument h
    rw [argument_prolog] at h
    rcases hrun : Read.text?.runFrom ⟨1 :: 0 :: bs, 2⟩ with ⟨answer, after⟩
    obtain rfl : answer = .ok (some s) := by rw [hrun] at h; exact h
    obtain ⟨hvalue, -⟩ | ⟨s, form, more, hvalue, hform, hrest⟩ := Read.spelled_of_text hrun
    · cases hvalue
    · cases hvalue
      exact ⟨form, more, hform, by rw [show bs = _ from hrest]; simp⟩
  · rintro ⟨form, more, hform, rfl⟩
    have hrun := Read.takes_text hform [1, 0] more
    have hblob : [1, 0] ++ form ++ Utf8.encode s ++ more = 1 :: 0 :: ((form ++ Utf8.encode s) ++ more) := by simp
    rw [hblob, argument_prolog]
    exact congrArg Prod.fst hrun

/-- **Which blobs hold an argument.** Reading finds that there is no text exactly behind the prolog and the mark of no
text, and it finds a text exactly behind the prolog and any compressed form of the text's length, in UTF-8. Anything may
follow, and nothing depends on it. Every other blob is refused. Reading ends within the blob, and on a machine whose
words hold the length of the blob it never asks for octets outside of it. -/
theorem argument_format (blob : List UInt8) :
    (argument blob = .ok none ↔ ∃ more, blob = [1, 0, 0xFF] ++ more) ∧
    (∀ s, argument blob = .ok (some s) ↔
      ∃ form more, Compressed form (Utf8.encode s).length ∧ blob = [1, 0] ++ form ++ Utf8.encode s ++ more) ∧
    ((∃ e, argument blob = .error e) ↔ (¬ ∃ more, blob = [1, 0, 0xFF] ++ more) ∧
      ¬ ∃ s form more, Compressed form (Utf8.encode s).length ∧ blob = [1, 0] ++ form ++ Utf8.encode s ++ more) ∧
    (readArgument.runFrom (.start blob)).2.position ≤ blob.length ∧
    ∀ limit, blob.length ≤ limit →
      (guardedArgument limit).runFrom (.start blob) = some (readArgument.runFrom (.start blob)) := by
  have hmoved := forward_readArgument (.start blob)
  refine ⟨argument_eq_none_iff blob, argument_eq_some_iff blob, ⟨?_, ?_⟩, ?_, fun limit hlimit =>
    agrees_readArgument _ (Cursor.within_start blob) hlimit⟩
  · rintro ⟨e, he⟩
    refine ⟨fun hnone => ?_, fun ⟨s, hsome⟩ => ?_⟩
    · rw [(argument_eq_none_iff blob).2 hnone] at he
      cases he
    · rw [(argument_eq_some_iff blob s).2 hsome] at he
      cases he
  · rintro ⟨hnone, hsome⟩
    rcases hanswer : argument blob with e | _ | s
    · exact ⟨e, rfl⟩
    · exact absurd ((argument_eq_none_iff blob).1 hanswer) hnone
    · exact absurd ⟨s, (argument_eq_some_iff blob s).1 hanswer⟩ hsome
  · have hlength : (readArgument.runFrom (.start blob)).2.length = blob.length := congrArg List.length hmoved.data
    exact hlength ▸ hmoved.within (Cursor.within_start blob)

/-- a length in a longer form than it needs, with an octet behind the text; and a text without its last octet -/
theorem argument_format_foo :
    argument [1, 0, 0x80, 3, 0x46, 0x6F, 0x6F, 7] = .ok (some "Foo") ∧
    (¬ ∃ s form more, Compressed form (Utf8.encode s).length ∧
      [1, 0, 3, 0x46, 0x6F] = [1, 0] ++ form ++ Utf8.encode s ++ more) ∧
    (guardedArgument 8).runFrom (.start [1, 0, 0x80, 3, 0x46, 0x6F, 0x6F, 7]) =
      some (.ok (some "Foo"), ⟨[1, 0, 0x80, 3, 0x46, 0x6F, 0x6F, 7], 7⟩) := by
  obtain ⟨-, hsome, -, -, hguarded⟩ := argument_format [1, 0, 0x80, 3, 0x46, 0x6F, 0x6F, 7]
  obtain ⟨-, -, herror, -, -⟩ := argument_format [1, 0, 3, 0x46, 0x6F]
  have hlength : Compressed [0x80, 3] (Utf8.encode "Foo").length := Compressed.two (n := 3) (by decide)
  exact ⟨(hsome "Foo").2 ⟨[0x80, 3], [7], hlength, rfl⟩, (herror.1 ⟨.outOfBounds, rfl⟩).2, hguarded 8 (by decide)⟩

end Blob

end FrameSymbols
