/-
Reading back what was written into a blob.

`Read.Takes` says which octets a read takes, wherever they stand and whatever follows them; reads one after the other
take the octets of both (`takes_bind`). `Blob.Compressed` says which octets stand for a number, in the shortest form or
in a longer one. A compressed number and a text are taken whole (`takes_compressed`, `takes_text`). What follows the text
does not matter (`argument_prolog`), so the argument of an attribute is the text it was made of (`argument_ofArgument`,
`argument_of_fits`).
-/
import FrameSymbols.Proofs.Blob.Cursor

namespace FrameSymbols

namespace Read

/-! ## What a read takes -/

/-- the read takes the octets `bs`, wherever they stand, and answers `a` -/
def Takes {α : Type} (q : Read α) (bs : List UInt8) (a : α) : Prop :=
  ∀ before rest, q.runFrom ⟨before ++ (bs ++ rest), before.length⟩ =
    (.ok a, ⟨before ++ (bs ++ rest), before.length + bs.length⟩)

variable {α β : Type}

theorem takes_pure (a : α) : Takes (pure a) [] a := fun _ _ => rfl

theorem takes_bind {q : Read α} {f : α → Read β} {bs bs' : List UInt8} {a : α} {b : β} (hq : q.Takes bs a)
    (hf : (f a).Takes bs' b) : (q >>= f).Takes (bs ++ bs') b := by
  intro before rest
  have h1 := hq before (bs' ++ rest)
  have h2 := hf (before ++ bs) rest
  simp only [List.append_assoc, List.length_append] at h1 h2 ⊢
  rw [Action.runFrom_bind, h1]
  simp only
  rw [h2, Nat.add_assoc]

theorem takes_octets (bs : List UInt8) : (octets bs.length).Takes bs bs := by
  intro before rest
  have henough : ¬ Cursor.remaining ⟨before ++ (bs ++ rest), before.length⟩ < bs.length := by
    simp [Cursor.remaining]
  rw [runFrom_octets, if_neg henough]
  simp [Cursor.rest, Cursor.advance]

theorem takes_octet (b : UInt8) : octet.Takes [b] b :=
  takes_bind (takes_octets [b]) (takes_pure b)

end Read

/-! ## Compressed numbers -/

namespace Blob

/-- octets that stand for a number in one of the compressed forms that have room for it, not only in the shortest -/
inductive Compressed : List UInt8 → Nat → Prop where
  | one {n : Nat} (fits : n < 0x80) : Compressed [UInt8.ofNat n] n
  | two {n : Nat} (fits : n < 0x4000) : Compressed [UInt8.ofNat (0x80 + n / 0x100), UInt8.ofNat n] n
  | four {n : Nat} (fits : n ≤ compressedMax) :
    Compressed [UInt8.ofNat (0xC0 + n / 0x1000000), UInt8.ofNat (n / 0x10000), UInt8.ofNat (n / 0x100), UInt8.ofNat n] n

theorem compressed_of_compress {n : Nat} {bs : List UInt8} (h : compress n = .ok bs) : Compressed bs n := by
  unfold compress at h
  split at h
  · next hn => cases h; exact .one hn
  · split at h
    · next hn => cases h; exact .two hn
    · split at h
      · next hn => cases h; exact .four hn
      · cases h

theorem toNat_ofNat (n : Nat) : (UInt8.ofNat n).toNat = n % 0x100 := UInt8.toNat_ofNat'

/-- the lead octet of a compressed number is none that leads nothing, nor the mark of no text -/
theorem Compressed.lead {n : Nat} {bs : List UInt8} (h : Compressed bs n) :
    ∃ lead more, bs = lead :: more ∧ lead < 0xE0 := by
  simp only [UInt8.lt_iff_toNat_lt, UInt8.reduceToNat]
  cases h with
  | one fits => exact ⟨_, _, rfl, by rw [toNat_ofNat]; omega⟩
  | two fits => exact ⟨_, _, rfl, by rw [toNat_ofNat]; omega⟩
  | four fits =>
    unfold compressedMax at fits
    exact ⟨_, _, rfl, by rw [toNat_ofNat]; omega⟩

end Blob

namespace Read

theorem ne_noText {lead : UInt8} (h : lead < 0xE0) : lead ≠ noText := by
  rintro rfl
  exact absurd h (by decide)

/-- a compressed number is read back, be it the shortest form or not -/
theorem takes_compressed {n : Nat} {bs : List UInt8} (h : Blob.Compressed bs n) : compressed.Takes bs n := by
  cases h with
  | one fits =>
    have hlead : (UInt8.ofNat n).toNat = n := by rw [Blob.toNat_ofNat]; omega
    refine takes_bind (takes_octet _) ?_
    rw [if_pos (UInt8.lt_iff_toNat_lt.2 (by rw [hlead]; exact fits)), hlead]
    exact takes_pure n
  | two fits =>
    have hlead : (UInt8.ofNat (0x80 + n / 0x100)).toNat = 0x80 + n / 0x100 := by rw [Blob.toNat_ofNat]; omega
    have h80 : ¬ UInt8.ofNat (0x80 + n / 0x100) < 0x80 := by
      simp only [UInt8.lt_iff_toNat_lt, hlead, UInt8.reduceToNat]; omega
    have hC0 : UInt8.ofNat (0x80 + n / 0x100) < 0xC0 := by
      simp only [UInt8.lt_iff_toNat_lt, hlead, UInt8.reduceToNat]; omega
    refine takes_bind (takes_octet _) ?_
    rw [if_neg h80, if_pos hC0]
    refine takes_bind (takes_octet _) ?_
    rw [hlead, Blob.toNat_ofNat, show (0x80 + n / 0x100 - 0x80) * 0x100 + n % 0x100 = n by omega]
    exact takes_pure n
  | four fits =>
    unfold Blob.compressedMax at fits
    have hlead : (UInt8.ofNat (0xC0 + n / 0x1000000)).toNat = 0xC0 + n / 0x1000000 := by rw [Blob.toNat_ofNat]; omega
    have h80 : ¬ UInt8.ofNat (0xC0 + n / 0x1000000) < 0x80 := by
      simp only [UInt8.lt_iff_toNat_lt, hlead, UInt8.reduceToNat]; omega
    have hC0 : ¬ UInt8.ofNat (0xC0 + n / 0x1000000) < 0xC0 := by
      simp only [UInt8.lt_iff_toNat_lt, hlead, UInt8.reduceToNat]; omega
    have hE0 : UInt8.ofNat (0xC0 + n / 0x1000000) < 0xE0 := by
      simp only [UInt8.lt_iff_toNat_lt, hlead, UInt8.reduceToNat]; omega
    have hvalue : (0xC0 + n / 0x1000000 - 0xC0) * 0x1000000 + n / 0x10000 % 0x100 * 0x10000 +
        n / 0x100 % 0x100 * 0x100 + n % 0x100 = n := by omega
    refine takes_bind (takes_octet _) ?_
    rw [if_neg h80, if_neg hC0, if_pos hE0]
    refine takes_bind (takes_octet _) (takes_bind (takes_octet _) (takes_bind (takes_octet _) ?_))
    rw [hlead, Blob.toNat_ofNat, Blob.toNat_ofNat, Blob.toNat_ofNat, hvalue]
    exact takes_pure n

/-! ## Texts and arguments -/

theorem takes_text {s : String} {length : List UInt8} (h : Blob.Compressed length (Utf8.encode s).length) :
    text?.Takes (length ++ Utf8.encode s) (some s) := by
  obtain ⟨lead, more, rfl, hlead⟩ := h.lead
  intro before rest
  have htake := takes_compressed h before (Utf8.encode s ++ rest)
  have hoctets := takes_octets (Utf8.encode s) (before ++ lead :: more) rest
  simp only [List.append_assoc, List.cons_append, List.length_append, List.length_cons] at htake hoctets ⊢
  have hrest : Cursor.rest ⟨before ++ lead :: (more ++ (Utf8.encode s ++ rest)), before.length⟩ =
      lead :: (more ++ (Utf8.encode s ++ rest)) := by simp [Cursor.rest]
  unfold text?
  rw [Action.runFrom_bind, runFrom_peek, hrest]
  simp only
  rw [if_neg (ne_noText hlead), Action.runFrom_bind, htake]
  simp only
  rw [Action.runFrom_bind, Action.runFrom_get]
  simp only
  rw [Action.runFrom_bind, hoctets]
  simp only [Utf8.decode_encode, Action.runFrom_pure]
  congr 2
  omega

end Read

namespace Blob

/-- the number of named arguments is no reason to fail -/
theorem namedCount?_answers (c : Cursor) : ∃ found, (Read.namedCount?.runFrom c).1 = .ok found := by
  unfold Read.namedCount?
  rw [Action.runFrom_bind, Action.runFrom_get]
  simp only
  split
  · next henough =>
    have hthere : ¬ c.remaining < IntegerForm.u16.width := Nat.not_lt.2 henough
    refine ⟨some (IntegerForm.u16.value (c.rest.take 2)), ?_⟩
    rw [Action.runFrom_bind, Read.runFrom_integer, if_neg hthere]
    rfl
  · exact ⟨none, rfl⟩

/-- behind the prolog the argument is the text, whatever follows it -/
theorem argument_prolog (bs : List UInt8) : argument (1 :: 0 :: bs) = (Read.text?.runFrom ⟨1 :: 0 :: bs, 2⟩).1 := by
  have hprolog : (Read.integer .u16).Takes [1, 0] 1 := Read.takes_bind (Read.takes_octets [1, 0]) (Read.takes_pure _)
  have hrun : (Read.integer .u16).runFrom ⟨1 :: 0 :: bs, 0⟩ = (.ok 1, ⟨1 :: 0 :: bs, 2⟩) := hprolog [] bs
  unfold argument readArgument Cursor.start
  rw [Action.runFrom_bind, hrun]
  simp only
  rw [if_pos (by rfl), Action.runFrom_bind]
  rcases Read.text?.runFrom ⟨1 :: 0 :: bs, 2⟩ with ⟨_ | value, c⟩
  · rfl
  · obtain ⟨found, hfound⟩ := namedCount?_answers c
    rcases hcount : Read.namedCount?.runFrom c with ⟨answer, after⟩
    rw [hcount] at hfound
    cases hfound
    simp only [Action.runFrom_bind, hcount, Action.runFrom_pure]

/-- the argument of an attribute is the text it was made of -/
theorem argument_ofArgument {s : String} {blob : List UInt8} (h : ofArgument (some s) = .ok blob)
    (hs : (Utf8.encode s).length ≤ compressedMax) : argument blob = .ok (some s) := by
  have hmod : (Utf8.encode s).length % UInt32.size = (Utf8.encode s).length :=
    Nat.mod_eq_of_lt (Nat.lt_of_le_of_lt hs (by decide))
  unfold ofArgument at h
  simp only [hmod] at h
  cases hc : compress (Utf8.encode s).length with
  | error e => rw [hc] at h; cases h
  | ok length =>
    rw [hc] at h
    cases h
    have hrun : Read.text?.runFrom ⟨1 :: 0 :: ((length ++ Utf8.encode s) ++ [0, 0]), 2⟩ = (.ok (some s), _) :=
      Read.takes_text (compressed_of_compress hc) [1, 0] [0, 0]
    have hblob : [1, 0] ++ length ++ Utf8.encode s ++ [0, 0] =
        1 :: 0 :: ((length ++ Utf8.encode s) ++ [0, 0]) := by simp
    rw [hblob, argument_prolog, hrun]

/-- the number of octets of a text can be compressed -/
def Fits (value : Option String) : Prop := ∀ s, value = some s → (Utf8.encode s).length ≤ compressedMax

theorem fits_none : Fits none := nofun

theorem compress_answers {n : Nat} (h : n ≤ compressedMax) : ∃ bs, compress n = .ok bs := by
  unfold compress
  rw [if_pos h]
  split
  · exact ⟨_, rfl⟩
  · split <;> exact ⟨_, rfl⟩

/-- a text that fits can be written, and is read back; so is none -/
theorem argument_of_fits {value : Option String} (h : Fits value) :
    ∃ blob, ofArgument value = .ok blob ∧ argument blob = .ok value := by
  cases value with
  | none => exact ⟨_, rfl, rfl⟩
  | some s =>
    have hs := h s rfl
    obtain ⟨length, hlength⟩ := compress_answers (Nat.le_trans (Nat.mod_le _ UInt32.size) hs)
    have hblob : ofArgument (some s) = .ok ([1, 0] ++ length ++ Utf8.encode s ++ [0, 0]) := by
      unfold ofArgument
      simp only [hlength]
      rfl
    exact ⟨_, hblob, argument_ofArgument hblob hs⟩

end Blob

end FrameSymbols
