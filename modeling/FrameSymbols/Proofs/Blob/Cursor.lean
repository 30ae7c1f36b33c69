/-
What each read does to the cursor.

A read either finds the octets it wants and moves behind them, or fails; peeking does not move, and an integer or a run
of octets that is not there leaves the cursor where it was (`runFrom_integer`, `runFrom_octets`). A compressed integer
or a text may fail after the cursor has moved, but no read goes back or leaves the octets (`Read.Forward`), so a cursor
that starts within them stays there through any sequence of reads (`within_run`).
-/
import FrameSymbols.Blob

namespace FrameSymbols

namespace Cursor

/-- the position is not past the end -/
def Within (c : Cursor) : Prop := c.position ≤ c.length

theorem within_start (data : List UInt8) : (start data).Within := Nat.zero_le _

@[simp] theorem rest_advance (c : Cursor) (n : Nat) : (c.advance n).rest = c.rest.drop n := by
  simp [rest, advance, List.drop_drop]

theorem length_rest (c : Cursor) : c.rest.length = c.remaining := by simp [rest, remaining]

theorem advance_advance (c : Cursor) (n k : Nat) : (c.advance n).advance k = c.advance (n + k) := by
  simp [advance, Nat.add_assoc]

/-- the same octets, at the same place or further on, and within them if the place was -/
structure Precedes (before after : Cursor) : Prop where
  data : after.data = before.data
  position : before.position ≤ after.position
  within : before.Within → after.Within

theorem Precedes.refl (c : Cursor) : c.Precedes c := ⟨rfl, Nat.le_refl _, id⟩

theorem Precedes.trans {a b c : Cursor} (h1 : a.Precedes b) (h2 : b.Precedes c) : a.Precedes c :=
  ⟨h2.data.trans h1.data, Nat.le_trans h1.position h2.position, fun h => h2.within (h1.within h)⟩

/-- a cursor may move over octets that are there -/
theorem precedes_advance {c : Cursor} {n : Nat} (h : n ≤ c.remaining) : c.Precedes (c.advance n) := by
  refine ⟨rfl, Nat.le_add_right _ _, fun hw => ?_⟩
  simp only [Within, advance, length, remaining] at h hw ⊢
  omega

end Cursor

/-- what a sequence answers, its second part answers behind its first -/
theorem Action.of_bind {σ α β : Type} {a : Action σ α} {f : α → Action σ β} {before after : σ} {y : β}
    (h : (a >>= f).runFrom before = (.ok y, after)) :
    ∃ x between, a.runFrom before = (.ok x, between) ∧ (f x).runFrom between = (.ok y, after) := by
  rw [runFrom_bind] at h
  rcases hrun : a.runFrom before with ⟨e | x, between⟩ <;> rw [hrun] at h
  · cases h
  · exact ⟨x, between, rfl, h⟩

namespace Read

variable {α β : Type}

/-! ## Single reads -/

theorem runFrom_octets (n : Nat) (c : Cursor) :
    (octets n).runFrom c = if c.remaining < n then (.error .outOfBounds, c) else (.ok (c.rest.take n), c.advance n) := by
  unfold octets
  rw [Action.runFrom_bind, Action.runFrom_get]
  simp only
  split
  · rfl
  · rw [Action.runFrom_bind, Action.runFrom_set]
    rfl

theorem runFrom_integer (form : IntegerForm) (c : Cursor) :
    (integer form).runFrom c = if c.remaining < form.width then (.error .outOfBounds, c)
      else (.ok (form.value (c.rest.take form.width)), c.advance form.width) := by
  unfold integer
  rw [Action.runFrom_bind, runFrom_octets]
  by_cases h : c.remaining < form.width
  · rw [if_pos h, if_pos h]
  · rw [if_neg h, if_neg h]
    rfl

theorem runFrom_octet (c : Cursor) :
    octet.runFrom c = match c.rest with
      | [] => (.error .outOfBounds, c)
      | b :: _ => (.ok b, c.advance 1) := by
  unfold octet
  rw [Action.runFrom_bind, runFrom_octets, ← c.length_rest]
  cases c.rest <;> rfl

theorem runFrom_peek (c : Cursor) :
    peek.runFrom c = match c.rest with
      | [] => (.error .outOfBounds, c)
      | b :: _ => (.ok b, c) := by
  unfold peek
  rw [Action.runFrom_bind, Action.runFrom_get]
  simp only
  cases c.rest <;> rfl

/-- octets that are answered were there, and the cursor stands behind them -/
theorem of_octets {n : Nat} {c after : Cursor} {bs : List UInt8} (h : (octets n).runFrom c = (.ok bs, after)) :
    n ≤ c.remaining ∧ bs = c.rest.take n ∧ after = c.advance n := by
  rw [runFrom_octets] at h
  split at h
  · cases h
  · next hthere =>
    cases h
    exact ⟨Nat.not_lt.1 hthere, rfl, rfl⟩

/-- an octet that is seen is the next one, and the cursor stays before it -/
theorem of_peek {c after : Cursor} {b : UInt8} (h : peek.runFrom c = (.ok b, after)) :
    after = c ∧ ∃ more, c.rest = b :: more := by
  rw [runFrom_peek] at h
  cases hrest : c.rest with
  | nil => rw [hrest] at h; cases h
  | cons first more =>
    rw [hrest] at h
    cases h
    exact ⟨rfl, more, rfl⟩

/-! ## No read goes back -/

/-- the read never goes back, and stays within the octets -/
def Forward (q : Read α) : Prop := ∀ c : Cursor, c.Precedes (q.runFrom c).2

theorem forward_pure (a : α) : Forward (pure a) := Cursor.Precedes.refl

theorem forward_throw (e : Error) : Forward (throw e : Read α) := Cursor.Precedes.refl

theorem forward_get : Forward (get : Read Cursor) := Cursor.Precedes.refl

theorem forward_bind {q : Read α} {f : α → Read β} (hq : q.Forward) (hf : ∀ a, (f a).Forward) : (q >>= f).Forward := by
  intro c
  have hfirst := hq c
  rw [Action.runFrom_bind]
  rcases hrun : q.runFrom c with ⟨e | a, after⟩
  · rw [hrun] at hfirst
    exact hfirst
  · rw [hrun] at hfirst
    exact hfirst.trans (hf a after)

theorem forward_octets (n : Nat) : (octets n).Forward := by
  intro c
  rw [runFrom_octets]
  split
  · exact .refl c
  · next h => exact Cursor.precedes_advance (Nat.not_lt.1 h)

theorem forward_integer (form : IntegerForm) : (integer form).Forward :=
  forward_bind (forward_octets _) fun _ => forward_pure _

theorem forward_octet : octet.Forward := by
  refine forward_bind (forward_octets 1) fun bs => ?_
  cases bs with
  | nil => exact forward_throw _
  | cons b bs => exact forward_pure b

theorem forward_peek : peek.Forward := by
  intro c
  rw [runFrom_peek]
  cases c.rest <;> exact .refl c

theorem forward_compressed : compressed.Forward := by
  refine forward_bind forward_octet fun lead => ?_
  split
  · exact forward_pure _
  · split
    · exact forward_bind forward_octet fun _ => forward_pure _
    · split
      · exact forward_bind forward_octet fun _ => forward_bind forward_octet fun _ =>
          forward_bind forward_octet fun _ => forward_pure _
      · exact forward_throw _

/-- a text moves over the mark of no text, or over a length and then over octets -/
theorem forward_text : text?.Forward := by
  intro c
  unfold text?
  rw [Action.runFrom_bind, runFrom_peek]
  rcases hrest : c.rest with _ | ⟨lead, more⟩
  · exact .refl c
  · simp only
    split
    · have hone : 1 ≤ c.remaining := by rw [← c.length_rest, hrest]; simp
      exact Cursor.precedes_advance hone
    · refine forward_bind forward_compressed (fun length => ?_) c
      refine forward_bind forward_get fun before => forward_bind (forward_octets length) fun bs => ?_
      split
      · exact forward_pure _
      · exact forward_throw _

theorem forward_namedCount : namedCount?.Forward := by
  refine forward_bind forward_get fun c => ?_
  split
  · exact forward_bind (forward_integer .u16) fun _ => forward_pure _
  · exact forward_pure _

end Read

/-! ## Sequences of reads -/

namespace Cursor

inductive Op where
  | peek
  | integer (form : IntegerForm)
  | octets (n : Nat)
  | compressed
  | text

def Op.Answer : Op → Type
  | .peek => UInt8
  | .integer _ => Int
  | .octets _ => List UInt8
  | .compressed => Nat
  | .text => Option String

def Op.read : (op : Op) → Read op.Answer
  | .peek => Read.peek
  | .integer form => Read.integer form
  | .octets n => Read.octets n
  | .compressed => Read.compressed
  | .text => Read.text?

/-- the cursor after a read, also when that fails -/
def step (c : Cursor) (op : Op) : Cursor := (op.read.runFrom c).2

def run (c : Cursor) (ops : List Op) : Cursor := ops.foldl step c

theorem forward_read (op : Op) : op.read.Forward := by
  cases op with
  | peek => exact Read.forward_peek
  | integer form => exact Read.forward_integer form
  | octets n => exact Read.forward_octets n
  | compressed => exact Read.forward_compressed
  | text => exact Read.forward_text

theorem precedes_step (c : Cursor) (op : Op) : c.Precedes (c.step op) := forward_read op c

theorem precedes_run (ops : List Op) (c : Cursor) : c.Precedes (c.run ops) := by
  induction ops generalizing c with
  | nil => exact .refl c
  | cons op ops ih => exact (c.precedes_step op).trans (ih (c.step op))

/-- a cursor on a blob stays on it, within its octets -/
theorem within_run (data : List UInt8) (ops : List Op) :
    ((start data).run ops).data = data ∧ ((start data).run ops).Within :=
  ⟨(precedes_run ops (start data)).data, (precedes_run ops (start data)).within (within_start data)⟩

end Cursor

end FrameSymbols
