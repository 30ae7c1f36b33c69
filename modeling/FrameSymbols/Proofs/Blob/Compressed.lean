/-
Compressed numbers, read and written.

What a compressed read takes is one of the forms of its answer (`compressed_of_read`), and the first octet decides
whether it fails and how (`outcome_of_compressed`). The writer puts the shortest form behind what is there, or leaves
that as it is (`runFrom_write`): on words it masks and shifts where `Blob.compress` has quotients. No form is shorter
than the one written, and none of the same length is different (`Compressed.shortest`). `compressed_exact` puts this
together.
-/
import FrameSymbols.Proofs.Blob
import Mathlib.Algebra.Group.Nat.Defs

namespace FrameSymbols

namespace Blob

/-! ## The three forms -/

/-- how many octets a compressed number has, by the first of them -/
def widthOf (lead : UInt8) : Nat := if lead < 0x80 then 1 else if lead < 0xC0 then 2 else 4

theorem Compressed.le_max {n : Nat} {bs : List UInt8} (h : Compressed bs n) : n ≤ compressedMax := by
  unfold compressedMax
  cases h with
  | one fits => omega
  | two fits => omega
  | four fits => exact fits

/-- octets that are the quotients of a number stand for it -/
theorem compressed_one {a : UInt8} (ha : a < 0x80) : Compressed [a] a.toNat := by
  have h := @Compressed.one a.toNat (UInt8.lt_iff_toNat_lt.1 ha)
  rwa [UInt8.ofNat_toNat] at h

theorem eq_ofNat {b : UInt8} {n : Nat} (h : n % 0x100 = b.toNat) : UInt8.ofNat n = b := by
  apply UInt8.toNat_inj.1
  rw [toNat_ofNat, h]

theorem compressed_two {a b : UInt8} (ha : ¬ a < 0x80) (ha' : a < 0xC0) :
    Compressed [a, b] ((a.toNat - 0x80) * 0x100 + b.toNat) := by
  simp only [UInt8.lt_iff_toNat_lt, UInt8.reduceToNat] at ha ha'
  have hb := b.toNat_lt
  have h := @Compressed.two ((a.toNat - 0x80) * 0x100 + b.toNat) (by omega)
  rwa [eq_ofNat (b := a) (by omega), eq_ofNat (b := b) (by omega)] at h

theorem compressed_four {a b1 b2 b3 : UInt8} (ha : ¬ a < 0xC0) (ha' : a < 0xE0) :
    Compressed [a, b1, b2, b3]
      ((a.toNat - 0xC0) * 0x1000000 + b1.toNat * 0x10000 + b2.toNat * 0x100 + b3.toNat) := by
  simp only [UInt8.lt_iff_toNat_lt, UInt8.reduceToNat] at ha ha'
  have hb1 := b1.toNat_lt
  have hb2 := b2.toNat_lt
  have hb3 := b3.toNat_lt
  have h := @Compressed.four ((a.toNat - 0xC0) * 0x1000000 + b1.toNat * 0x10000 + b2.toNat * 0x100 + b3.toNat)
    (by unfold compressedMax; omega)
  rwa [eq_ofNat (b := a) (by omega), eq_ofNat (b := b1) (by omega), eq_ofNat (b := b2) (by omega),
    eq_ofNat (b := b3) (by omega)] at h

/-- what is written for a number is at most as long as any form of it, and of forms as long it is the only one -/
theorem Compressed.shortest {n : Nat} {bs : List UInt8} (h : Compressed bs n) :
    ∃ written, compress n = .ok written ∧ written.length ≤ bs.length ∧ (written.length = bs.length ↔ written = bs) := by
  have hmax := h.le_max
  unfold compress
  split
  · next hone =>
    refine ⟨_, rfl, ?_⟩
    cases h <;> simp
  · next hone =>
    split
    · next htwo =>
      refine ⟨_, rfl, ?_⟩
      cases h with
      | one fits => exact absurd fits hone
      | two fits => simp
      | four fits => simp
    · next htwo =>
      refine ⟨_, rfl, ?_⟩
      cases h with
      | one fits => exact absurd fits hone
      | two fits => exact absurd fits htwo
      | four fits => simp

end Blob

/-! ## Reading -/

namespace Read

open Blob (Compressed widthOf)

variable {α : Type}

theorem runFrom_octet_cons {c : Cursor} {b : UInt8} {more : List UInt8} (h : c.rest = b :: more) (f : UInt8 → Read α) :
    (octet >>= f).runFrom c = (f b).runFrom (c.advance 1) ∧ (c.advance 1).rest = more := by
  refine ⟨?_, by rw [Cursor.rest_advance, h]; rfl⟩
  rw [Action.runFrom_bind, runFrom_octet, h]

theorem runFrom_octet_nil {c : Cursor} (h : c.rest = []) (f : UInt8 → Read α) :
    (octet >>= f).runFrom c = (.error .outOfBounds, c) := by
  rw [Action.runFrom_bind, runFrom_octet, h]

/-- the octets that are left start with a compressed form of `n` and it is passed over, or a lead octet leads nothing,
or octets are missing -/
inductive Outcome (c : Cursor) (lead : UInt8) (more : List UInt8) : Except Error Nat × Cursor → Prop where
  | whole {n : Nat} {taken : List UInt8} (form : Compressed taken n) (there : taken <+: lead :: more)
    (lt : lead < 0xE0) (width : taken.length = widthOf lead) : Outcome c lead more (.ok n, c.advance taken.length)
  | cut {after : Cursor} (lt : lead < 0xE0) (width : more.length + 1 < widthOf lead) :
    Outcome c lead more (.error .outOfBounds, after)
  | astray {after : Cursor} (le : 0xE0 ≤ lead) :
    Outcome c lead more (.error (.malformed (.compressedLead lead)), after)

/-- the outcome of a compressed read, as far as the first octet decides it -/
theorem outcome_of_compressed {c : Cursor} {lead : UInt8} {more : List UInt8} (h : c.rest = lead :: more) :
    Outcome c lead more (compressed.runFrom c) := by
  obtain ⟨hrun, hmore⟩ := runFrom_octet_cons h (α := Nat) _
  unfold compressed
  rw [hrun]
  split
  · next h80 =>
    have hE0 : lead < 0xE0 := UInt8.lt_trans h80 (by decide)
    exact .whole (Blob.compressed_one h80) (List.prefix_append [lead] more) hE0 (by simp [widthOf, h80])
  · next h80 =>
    split
    · next hC0 =>
      have hE0 : lead < 0xE0 := UInt8.lt_trans hC0 (by decide)
      have hwidth : widthOf lead = 2 := by simp [widthOf, h80, hC0]
      rcases more with _ | ⟨b, more⟩
      · rw [runFrom_octet_nil hmore]
        exact .cut hE0 (by simp [hwidth])
      · rw [(runFrom_octet_cons hmore _).1, Cursor.advance_advance]
        exact .whole (Blob.compressed_two h80 hC0) (List.prefix_append [lead, b] more) hE0 hwidth.symm
    · next hC0 =>
      have hwidth : widthOf lead = 4 := by simp [widthOf, h80, hC0]
      split
      · next hE0 =>
        rcases more with _ | ⟨b1, _ | ⟨b2, _ | ⟨b3, more⟩⟩⟩
        · rw [runFrom_octet_nil hmore]
          exact .cut hE0 (by simp [hwidth])
        · obtain ⟨hrun1, hmore1⟩ := runFrom_octet_cons hmore (α := Nat) _
          rw [hrun1, runFrom_octet_nil hmore1]
          exact .cut hE0 (by simp [hwidth])
        · obtain ⟨hrun1, hmore1⟩ := runFrom_octet_cons hmore (α := Nat) _
          obtain ⟨hrun2, hmore2⟩ := runFrom_octet_cons hmore1 (α := Nat) _
          rw [hrun1, hrun2, runFrom_octet_nil hmore2]
          exact .cut hE0 (by simp [hwidth])
        · obtain ⟨hrun1, hmore1⟩ := runFrom_octet_cons hmore (α := Nat) _
          obtain ⟨hrun2, hmore2⟩ := runFrom_octet_cons hmore1 (α := Nat) _
          rw [hrun1, hrun2, (runFrom_octet_cons hmore2 _).1]
          simp only [Cursor.advance_advance]
          exact .whole (Blob.compressed_four hC0 hE0) (List.prefix_append [lead, b1, b2, b3] more) hE0 hwidth.symm
      · next hE0 => exact .astray (UInt8.not_lt.1 hE0)

/-- whether and how a compressed read fails, by the first octet and by how many follow it -/
theorem Outcome.refusals {c : Cursor} {lead : UInt8} {more : List UInt8} {result : Except Error Nat × Cursor}
    (h : Outcome c lead more result) :
    ((∃ damage, result.1 = .error (.malformed damage)) ↔ 0xE0 ≤ lead) ∧
    (result.1 = .error .outOfBounds ↔ lead < 0xE0 ∧ more.length + 1 < widthOf lead) ∧
    ∀ e, result.1 = .error e → e = .outOfBounds ∨ ∃ damage, e = .malformed damage := by
  cases h with
  | whole form there lt width =>
    have hthere := there.length_le
    rw [width, List.length_cons] at hthere
    refine ⟨?_, ?_, nofun⟩
    · simpa using UInt8.not_le.2 lt
    · simpa using fun _ => hthere
  | cut lt width =>
    refine ⟨?_, ?_, ?_⟩
    · simpa using UInt8.not_le.2 lt
    · simpa using ⟨lt, width⟩
    · rintro e ⟨⟩
      exact .inl rfl
  | astray le =>
    refine ⟨?_, ?_, ?_⟩
    · simpa using le
    · simpa using fun lt => absurd lt (UInt8.not_lt.2 le)
    · rintro e ⟨⟩
      exact .inr ⟨_, rfl⟩

/-- what a compressed read takes is a form of what it answers -/
theorem compressed_of_read {c after : Cursor} {n : Nat} (h : compressed.runFrom c = (.ok n, after)) :
    ∃ taken, taken <+: c.rest ∧ after = c.advance taken.length ∧ Compressed taken n := by
  cases hrest : c.rest with
  | nil =>
    unfold compressed at h
    rw [runFrom_octet_nil hrest] at h
    cases h
  | cons lead more =>
    have ho := outcome_of_compressed hrest
    rw [h] at ho
    cases ho with
    | whole form there _ _ => exact ⟨_, there, rfl, form⟩

end Read

/-! ## Writing -/

namespace Blob

def put (b : UInt8) : Action (List UInt8) Unit := modify (· ++ [b])

/-- puts the shortest compressed form of a word behind what is there -/
def write (v : UInt32) : Action (List UInt8) Unit := do
  if v ≤ 0x7F then put v.toUInt8
  else if v ≤ 0x3FFF then
    put ((0x80 : UInt8) ||| (v >>> 8).toUInt8)
    put v.toUInt8
  else if v ≤ 0x1FFFFFFF then
    put ((0xC0 : UInt8) ||| (v >>> 24).toUInt8)
    put (v >>> 16).toUInt8
    put (v >>> 8).toUInt8
    put v.toUInt8
  else throw (.malformed (.uncompressible v.toNat))

theorem runFrom_put (b : UInt8) (out : List UInt8) : (put b).runFrom out = (.ok (), out ++ [b]) := rfl

theorem toUInt8_eq (v : UInt32) : v.toUInt8 = UInt8.ofNat v.toNat := by
  apply UInt8.toNat_inj.1
  rw [toNat_ofNat, UInt32.toNat_toUInt8]

theorem shifted_toUInt8 (v : UInt32) {s : UInt32} {k : Nat} (hs : s.toNat = k) (hk : k < 32) :
    (v >>> s).toUInt8 = UInt8.ofNat (v.toNat / 2 ^ k) := by
  apply UInt8.toNat_inj.1
  rw [toNat_ofNat, UInt32.toNat_toUInt8, UInt32.toNat_shiftRight, hs, Nat.mod_eq_of_lt hk, Nat.shiftRight_eq_div_pow]

/-- a mark in the high bits and a number below them do not meet -/
theorem or_eq_ofNat {mark : UInt8} {i a n : Nat} (hmark : mark.toNat = 2 ^ i * a) (hn : n < 2 ^ i) (hi : i ≤ 8) :
    mark ||| UInt8.ofNat n = UInt8.ofNat (mark.toNat + n) := by
  have hlow : n < 0x100 := Nat.lt_of_lt_of_le hn (Nat.pow_le_pow_right (by decide) hi)
  apply UInt8.toNat_inj.1
  rw [UInt8.toNat_or, toNat_ofNat, Nat.mod_eq_of_lt hlow, hmark, ← Nat.two_pow_add_eq_or_of_lt hn, toNat_ofNat, ← hmark]
  refine (Nat.mod_eq_of_lt ?_).symm
  rw [hmark, Nat.two_pow_add_eq_or_of_lt hn, ← hmark]
  exact Nat.or_lt_two_pow (n := 8) mark.toNat_lt hlow

/-- a word is written as its shortest compressed form, and one without such a form leaves everything as it is -/
theorem runFrom_write (v : UInt32) (out : List UInt8) :
    (write v).runFrom out = match compress v.toNat with
      | .ok bs => (.ok (), out ++ bs)
      | .error e => (.error e, out) := by
  have hword : ∀ k : UInt32, v ≤ k ↔ v.toNat < k.toNat + 1 := fun k => by
    rw [UInt32.le_iff_toNat_le, Nat.lt_succ_iff]
  unfold write compress compressedMax
  simp only [hword, UInt32.reduceToNat, ← Nat.lt_succ_iff, Nat.succ_eq_add_one, Nat.reduceAdd]
  split
  · rw [toUInt8_eq]
    rfl
  · split
    · next htwo =>
      have hlead : (0x80 : UInt8) ||| (v >>> 8).toUInt8 = UInt8.ofNat (0x80 + v.toNat / 0x100) := by
        rw [shifted_toUInt8 v (k := 8) rfl (by decide), or_eq_ofNat (i := 6) (a := 2) rfl (by omega) (by decide)]
        rfl
      rw [hlead, toUInt8_eq, Action.runFrom_bind, runFrom_put]
      simp only
      rw [runFrom_put, List.append_assoc]
      rfl
    · split
      · next hfour =>
        have hlead : (0xC0 : UInt8) ||| (v >>> 24).toUInt8 = UInt8.ofNat (0xC0 + v.toNat / 0x1000000) := by
          rw [shifted_toUInt8 v (k := 24) rfl (by decide), or_eq_ofNat (i := 5) (a := 6) rfl (by omega) (by decide)]
          rfl
        rw [hlead, shifted_toUInt8 v (s := 16) rfl (by decide), shifted_toUInt8 v (s := 8) rfl (by decide), toUInt8_eq]
        simp only [Action.runFrom_bind, runFrom_put, List.append_assoc]
        rfl
      · rfl

theorem compress_too_large {n : Nat} (h : compressedMax < n) : compress n = .error (.malformed (.uncompressible n)) := by
  unfold compressedMax at h
  unfold compress compressedMax
  rw [if_neg (by omega), if_neg (by omega), if_neg (by omega)]

/-- **Compressed numbers come back, in the shortest form.** A word of up to 29 bits is written behind whatever is there,
and reading from there gives it back and stops at whatever follows; its first octet is not the mark of no text. A larger
word is refused and leaves everything as it was. Whatever is read is a number of up to 29 bits whose written form is no
longer than what was taken, and as long only if it is the same. Where there is an octet to read, the read is refused as
damaged exactly when that octet is `0xE0` or more, and otherwise fails exactly when the octets it asks for are missing. -/
theorem compressed_exact :
    (∀ (v : UInt32) (out : List UInt8), v.toNat ≤ compressedMax → ∃ bs, compress v.toNat = .ok bs ∧
      (write v).runFrom out = (.ok (), out ++ bs) ∧ bs.head? ≠ some Read.noText ∧
      ∀ following, Read.compressed.runFrom ⟨out ++ (bs ++ following), out.length⟩ =
        (.ok v.toNat, ⟨out ++ (bs ++ following), out.length + bs.length⟩)) ∧
    (∀ (v : UInt32) (out : List UInt8), compressedMax < v.toNat →
      (write v).runFrom out = (.error (.malformed (.uncompressible v.toNat)), out)) ∧
    (∀ (c after : Cursor) (n : Nat), Read.compressed.runFrom c = (.ok n, after) → n ≤ compressedMax ∧
      ∃ taken written, taken <+: c.rest ∧ after = c.advance taken.length ∧ compress n = .ok written ∧
        written.length ≤ taken.length ∧ (written.length = taken.length ↔ written = taken)) ∧
    ∀ (c : Cursor) (lead : UInt8) (more : List UInt8), c.rest = lead :: more →
      ((∃ damage, (Read.compressed.runFrom c).1 = .error (.malformed damage)) ↔ 0xE0 ≤ lead) ∧
      ((Read.compressed.runFrom c).1 = .error .outOfBounds ↔ lead < 0xE0 ∧ more.length + 1 < widthOf lead) ∧
      ∀ e, (Read.compressed.runFrom c).1 = .error e → e = .outOfBounds ∨ ∃ damage, e = .malformed damage := by
  refine ⟨?_, ?_, ?_, ?_⟩
  · intro v out hv
    obtain ⟨bs, hbs⟩ := compress_answers hv
    have hform := compressed_of_compress hbs
    obtain ⟨lead, more, rfl, hlead⟩ := hform.lead
    refine ⟨_, hbs, by rw [runFrom_write, hbs], ?_, fun following => Read.takes_compressed hform out following⟩
    simpa using Read.ne_noText hlead
  · intro v out hv
    rw [runFrom_write, compress_too_large hv]
  · intro c after n hread
    obtain ⟨taken, hprefix, hafter, hform⟩ := Read.compressed_of_read hread
    obtain ⟨written, hwritten, hle, heq⟩ := hform.shortest
    exact ⟨hform.le_max, taken, written, hprefix, hafter, hwritten, hle, heq⟩
  · intro c lead more hrest
    exact (Read.outcome_of_compressed hrest).refusals

/-- the least number that needs four octets, behind two octets and before one; a number that none stands for; a longer
form of 3; and octets of which the first leads nothing, or asks for another one -/
theorem compressed_exact_samples :
    ((write 0x4000).runFrom [1, 0] = (.ok (), [1, 0, 0xC0, 0x00, 0x40, 0x00]) ∧
      Read.compressed.runFrom ⟨[1, 0, 0xC0, 0x00, 0x40, 0x00, 0xFF], 2⟩ =
        (.ok 0x4000, ⟨[1, 0, 0xC0, 0x00, 0x40, 0x00, 0xFF], 6⟩)) ∧
    (write 0x20000000).runFrom [1, 0] = (.error (.malformed (.uncompressible 0x20000000)), [1, 0]) ∧
    (∃ taken written, taken <+: [0x80, 3] ∧ compress 3 = .ok written ∧ written.length ≤ taken.length ∧
      ¬ written = taken) ∧
    (∃ damage, (Read.compressed.runFrom (.start [0xE0, 0, 0, 0])).1 = .error (.malformed damage)) ∧
    (Read.compressed.runFrom (.start [0xC0, 0])).1 = .error .outOfBounds := by
  obtain ⟨hwrite, hlarge, hread, hfail⟩ := compressed_exact
  refine ⟨?_, hlarge 0x20000000 [1, 0] (by decide), ?_, (hfail _ 0xE0 [0, 0, 0] rfl).1.2 (by decide),
    (hfail _ 0xC0 [0] rfl).2.1.2 (by decide)⟩
  · obtain ⟨bs, hbs, hput, -, hback⟩ := hwrite 0x4000 [1, 0] (by decide)
    obtain rfl : bs = [0xC0, 0x00, 0x40, 0x00] := by cases hbs; rfl
    exact ⟨hput, hback [0xFF]⟩
  · obtain ⟨-, taken, written, hprefix, hafter, hwritten, hle, hsame⟩ := hread (.start [0x80, 3]) ⟨[0x80, 3], 2⟩ 3 rfl
    refine ⟨taken, written, hprefix, hwritten, hle, fun h => ?_⟩
    have hthree : written = [3] := by cases hwritten; rfl
    have htwo : taken.length = 2 := by
      simpa [Cursor.start, Cursor.advance] using (congrArg Cursor.position hafter).symm
    rw [← h, hthree] at htwo
    cases htwo

end Blob

end FrameSymbols
