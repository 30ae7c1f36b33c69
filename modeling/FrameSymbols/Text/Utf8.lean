/-
Text in UTF-8: which octets are text, and where the others first go wrong.

`decode` accepts exactly the well-formed sequences (`decode_encode`, `eq_encode_of_decode`). A sequence that is not well
formed is described by the number of octets before the first fault, and by the length of the longest well-formed start of
a character found there, unless the octets simply end too early.
-/
namespace FrameSymbols.Utf8

/-- the first fault of a sequence of octets that is not text -/
structure Fault where
  /-- how many octets are text -/
  validUpTo : Nat
  /-- how many octets from there on start no character; nothing if the octets end within a character -/
  length : Option Nat
  deriving DecidableEq, Repr

def Fault.message (f : Fault) : String :=
  match f.length with
  | some length => s!"invalid utf-8 sequence of {length} bytes from index {f.validUpTo}"
  | none => s!"incomplete utf-8 byte sequence from index {f.validUpTo}"

instance : ToString Fault := ⟨Fault.message⟩

/-- a range of octets, both ends included -/
abbrev Octets := UInt8 × UInt8

def Octets.has (r : Octets) (b : UInt8) : Bool := r.1 ≤ b && b ≤ r.2

def continuation : Octets := (0x80, 0xBF)

/-- which octets may follow a lead octet, one range for each; nothing if the octet leads no character -/
def followers (lead : UInt8) : Option (List Octets) :=
  if lead < 0x80 then some []
  else if lead < 0xC2 then none
  else if lead < 0xE0 then some [continuation]
  else if lead == 0xE0 then some [(0xA0, 0xBF), continuation]
  else if lead == 0xED then some [(0x80, 0x9F), continuation]
  else if lead < 0xF0 then some [continuation, continuation]
  else if lead == 0xF0 then some [(0x90, 0xBF), continuation, continuation]
  else if lead < 0xF4 then some [continuation, continuation, continuation]
  else if lead == 0xF4 then some [(0x80, 0x8F), continuation, continuation]
  else none

/-- what became of a character whose lead octet was read -/
inductive Outcome where
  /-- all followers are there; this many octets were read, and these are left -/
  | complete (read : Nat) (rest : List UInt8)
  /-- the octet after this many does not fit -/
  | broken (read : Nat)
  /-- the octets end -/
  | cut

/-- reads the followers of a character of which `read` octets were read -/
def follow (read : Nat) : List Octets → List UInt8 → Outcome
  | [], rest => .complete read rest
  | _ :: _, [] => .cut
  | r :: rs, b :: rest => if r.has b then follow (read + 1) rs rest else .broken read

theorem follow_complete_le {read read' : Nat} {rs : List Octets} {bs rest : List UInt8}
    (h : follow read rs bs = .complete read' rest) : rest.length ≤ bs.length := by
  induction rs generalizing read bs with
  | nil => cases h; exact Nat.le_refl _
  | cons r rs ih =>
    cases bs with
    | nil => cases h
    | cons b bs =>
      simp only [follow] at h
      split at h
      · exact Nat.le_succ_of_le (ih h)
      · cases h

/-- the first fault of octets that follow `done` octets of text, if there is one -/
def firstFault (done : Nat) : List UInt8 → Option Fault
  | [] => none
  | lead :: bs =>
    match followers lead with
    | none => some ⟨done, some 1⟩
    | some rs =>
      match h : follow 1 rs bs with
      | .complete read rest =>
        have := follow_complete_le h
        firstFault (done + read) rest
      | .broken read => some ⟨done, some read⟩
      | .cut => some ⟨done, none⟩
  termination_by bs => bs.length

def encode (s : String) : List UInt8 := s.toByteArray.data.toList

/-- the text that the octets spell, or their first fault -/
def decode (bs : List UInt8) : Except Fault String :=
  if h : (ByteArray.mk bs.toArray).IsValidUTF8 then .ok (.ofByteArray _ h)
  else .error ((firstFault 0 bs).getD ⟨bs.length, none⟩)

theorem decode_encode (s : String) : decode (encode s) = .ok s := by
  simp [decode, encode, s.isValidUTF8]

theorem eq_encode_of_decode {bs : List UInt8} {s : String} (h : decode bs = .ok s) : bs = encode s := by
  unfold decode at h
  split at h
  · cases h; simp [encode]
  · cases h

end FrameSymbols.Utf8
