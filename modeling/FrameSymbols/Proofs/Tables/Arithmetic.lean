/-
Sums and differences of rows.

Rows are words of 32 bits. An `Exact` computation has no outcome at all where a sum or a difference leaves them, so one
that has an outcome meets no such place. Each round of the search for an owner stays within its bounds and halves them
(`run_round`, `width_narrowed`), so the search ends after at most 32 rounds and never leaves the words, whatever rows a host
reports (`run_search`, `run_exactOwner`). The run of a type leaves them in one place only: the end of the last run, where
the methods are as many as there are words (`run_exactRun`). `row_arithmetic_exact` puts this together.
-/
import FrameSymbols.Proofs.Tables.Owners

namespace FrameSymbols.Tables

/-! ## Exact computations -/

/-- a computation without an outcome where a sum or a difference of rows does not fit into a word -/
abbrev Exact := ExceptT Error Option

namespace Exact

def ask {α : Type} (x : Except Error α) : Exact α := ExceptT.mk (some x)

def stuck {α : Type} : Exact α := ExceptT.mk none

def sum (a b : UInt32) : Exact UInt32 := if a.toNat + b.toNat < 2 ^ 32 then pure (a + b) else stuck

def difference (a b : UInt32) : Exact UInt32 := if b.toNat ≤ a.toNat then pure (a - b) else stuck

variable {α β : Type}

theorem run_pure (a : α) : (pure a : Exact α).run = some (.ok a) := rfl

theorem run_stuck : (stuck : Exact α).run = none := rfl

theorem run_ask_bind (x : Except Error α) (k : α → Exact β) :
    (ask x >>= k).run = match x with | .ok a => (k a).run | .error e => some (.error e) := by
  cases x <;> rfl

theorem run_bind_ok {x : Exact α} {a : α} (h : x.run = some (.ok a)) (k : α → Exact β) : (x >>= k).run = (k a).run := by
  rw [ExceptT.run_bind, h]
  rfl

theorem run_bind_stuck {x : Exact α} (h : x.run = none) (k : α → Exact β) : (x >>= k).run = none := by
  rw [ExceptT.run_bind, h]
  rfl

theorem run_sum {a b : UInt32} (h : a.toNat + b.toNat < 2 ^ 32) : (sum a b).run = some (.ok (a + b)) := by
  rw [sum, if_pos h, run_pure]

theorem run_sum_stuck {a b : UInt32} (h : 2 ^ 32 ≤ a.toNat + b.toNat) : (sum a b).run = none := by
  rw [sum, if_neg (Nat.not_lt.2 h), run_stuck]

theorem run_difference {a b : UInt32} (h : b.toNat ≤ a.toNat) : (difference a b).run = some (.ok (a - b)) := by
  rw [difference, if_pos h, run_pure]

end Exact

variable (t : Tables) (method : UInt32)

/-! ## The search for an owner -/

/-- what is known of the number of types that start at or before a method -/
structure Bounds where
  low : UInt32
  high : UInt32

namespace Bounds

/-- the number of rows that the search has to tell apart -/
def width (b : Bounds) : Nat := b.high.toNat - b.low.toNat

/-- the bounds are in order and within the table -/
structure Within (t : Tables) (b : Bounds) : Prop where
  ordered : b.low ≤ b.high
  bounded : b.high ≤ t.rowCount .typeDef

def middle (b : Bounds) : Exact UInt32 := do
  let width ← Exact.difference b.high b.low
  Exact.sum b.low (width / 2)

/-- the row that is looked at in a round -/
def probe (b : Bounds) : Exact UInt32 := do
  let middle ← b.middle
  Exact.sum middle 1

theorem run_middle {b : Bounds} (h : b.low < b.high) : b.middle.run = some (.ok (midpoint b.low b.high)) := by
  have hlt := UInt32.lt_iff_toNat_lt.1 h
  have hhigh := b.high.toNat_lt
  have hwidth : (b.high - b.low).toNat = b.high.toNat - b.low.toNat :=
    UInt32.toNat_sub_of_le _ _ (UInt32.le_iff_toNat_le.2 (Nat.le_of_lt hlt))
  have hhalf : ((b.high - b.low) / 2).toNat = (b.high.toNat - b.low.toNat) / 2 := by
    rw [UInt32.toNat_div, hwidth]
    rfl
  unfold middle
  rw [Exact.run_bind_ok (Exact.run_difference (Nat.le_of_lt hlt)), Exact.run_sum (by omega)]
  rfl

theorem run_probe {b : Bounds} (h : b.low < b.high) : b.probe.run = some (.ok (midpoint b.low b.high + 1)) := by
  have hlt := UInt32.lt_iff_toNat_lt.1 h
  have hhigh := b.high.toNat_lt
  have hmiddle := toNat_midpoint h
  unfold probe
  exact (Exact.run_bind_ok (run_middle h) _).trans (Exact.run_sum (by simp only [UInt32.reduceToNat]; omega))

end Bounds

def round (b : Bounds) : Exact Bounds := do
  let probe ← b.probe
  let row ← Exact.ask (t.typeRow probe)
  if row.methodList ≤ method then return { b with low := probe } else return { b with high := ← b.middle }

/-- rounds until the bounds meet, without an outcome if `rounds` of them are not enough -/
def search (rounds : Nat) (b : Bounds) : Exact UInt32 :=
  if b.low < b.high then
    match rounds with
    | 0 => Exact.stuck
    | rounds + 1 => do search rounds (← t.round method b)
  else return b.low

/-- the type that owns a method, with at most 32 rounds of search -/
def exactOwner : Exact UInt32 := do
  let count := t.rowCount .methodDef
  if method = 0 ∨ count < method then throw (.malformed (.methodMissing method count))
  else
    let last ← t.search method 32 ⟨0, t.rowCount .typeDef⟩
    if last = 0 then throw (.malformed (.methodUnowned method)) else return last

/-- the bounds that a search gets to -/
inductive Reached : Bounds → Prop where
  | start : Reached ⟨0, t.rowCount .typeDef⟩
  | round {b next : Bounds} (reached : Reached b) (open_ : b.low < b.high)
      (moved : (t.round method b).run = some (.ok next)) : Reached next

variable {t method} {b : Bounds}

/-- the bounds behind a round -/
def Bounds.narrowed (b : Bounds) (method : UInt32) (row : TypeRow) : Bounds :=
  if row.methodList ≤ method then { b with low := midpoint b.low b.high + 1 }
  else { b with high := midpoint b.low b.high }

/-- a round meets no sum or difference that does not fit -/
theorem run_round (h : b.low < b.high) :
    (t.round method b).run = some ((t.typeRow (midpoint b.low b.high + 1)).map (b.narrowed method)) := by
  unfold round
  rw [Exact.run_bind_ok (Bounds.run_probe h), Exact.run_ask_bind]
  cases t.typeRow (midpoint b.low b.high + 1) with
  | error e => rfl
  | ok row =>
    show (if row.methodList ≤ method then _ else _ : Exact Bounds).run = some (.ok (if row.methodList ≤ method then _ else _))
    split
    · rfl
    · rw [Exact.run_bind_ok (Bounds.run_middle h), Exact.run_pure]

/-- a round keeps the bounds within the table -/
theorem Bounds.Within.narrowed (hw : b.Within t) (h : b.low < b.high) (row : TypeRow) :
    (b.narrowed method row).Within t := by
  have hlt := UInt32.lt_iff_toNat_lt.1 h
  have hmiddle := toNat_midpoint h
  have hprobe := toNat_midpoint_succ h
  unfold Bounds.narrowed
  split
  · have hbelow : midpoint b.low b.high + 1 ≤ b.high := UInt32.le_iff_toNat_le.2 (by omega)
    exact ⟨hbelow, hw.bounded⟩
  · have habove : b.low ≤ midpoint b.low b.high := UInt32.le_iff_toNat_le.2 (by omega)
    have hbelow : midpoint b.low b.high ≤ b.high := UInt32.le_iff_toNat_le.2 (by omega)
    exact ⟨habove, UInt32.le_trans hbelow hw.bounded⟩

/-- a round leaves at most half of the rows -/
theorem width_narrowed (h : b.low < b.high) (row : TypeRow) : (b.narrowed method row).width ≤ b.width / 2 := by
  have hlt := UInt32.lt_iff_toNat_lt.1 h
  have hmiddle := toNat_midpoint h
  have hprobe := toNat_midpoint_succ h
  unfold Bounds.narrowed Bounds.width
  split <;> dsimp only <;> omega

/-- the search for an owner goes on with the bounds behind a round -/
theorem startedBy_narrowed (h : b.low < b.high) :
    t.startedBy method b.low b.high = (t.typeRow (midpoint b.low b.high + 1) >>= fun row =>
      t.startedBy method (b.narrowed method row).low (b.narrowed method row).high) := by
  rw [startedBy, dif_pos h]
  cases t.typeRow (midpoint b.low b.high + 1) with
  | error e => rfl
  | ok row =>
    show (if row.methodList ≤ method then _ else _ : Except Error UInt32) =
      t.startedBy method (b.narrowed method row).low (b.narrowed method row).high
    unfold Bounds.narrowed
    split <;> rfl

/-- a search with enough rounds to halve its rows away ends where the search for an owner ends -/
theorem run_search {rounds : Nat} (h : b.width < 2 ^ rounds) :
    (t.search method rounds b).run = some (t.startedBy method b.low b.high) := by
  induction rounds generalizing b with
  | zero =>
    have hmet : ¬ b.low < b.high := by
      rw [UInt32.lt_iff_toNat_lt]
      simp only [Bounds.width] at h
      omega
    rw [search, startedBy, if_neg hmet, dif_neg hmet]
    rfl
  | succ rounds ih =>
    by_cases hlt : b.low < b.high
    · have hround : (t.round method b).run = _ := run_round hlt
      rw [search, if_pos hlt, startedBy_narrowed hlt]
      cases hr : t.typeRow (midpoint b.low b.high + 1) with
      | error e =>
        rw [hr] at hround
        rw [ExceptT.run_bind, hround]
        rfl
      | ok row =>
        rw [hr] at hround
        have hhalf : (b.narrowed method row).width ≤ b.width / 2 := width_narrowed hlt row
        rw [Exact.run_bind_ok hround, ih (by omega)]
        rfl
    · rw [search, if_neg hlt, startedBy, dif_neg hlt]
      rfl

theorem run_exactOwner (t : Tables) (method : UInt32) : (t.exactOwner method).run = some (t.owner method) := by
  have hwidth : Bounds.width ⟨0, t.rowCount .typeDef⟩ < 2 ^ 32 := (t.rowCount .typeDef).toNat_lt
  unfold exactOwner owner
  dsimp only
  split
  · rfl
  · cases hs : t.startedBy method 0 (t.rowCount .typeDef) with
    | error e =>
      rw [ExceptT.run_bind, run_search hwidth, hs]
      rfl
    | ok last =>
      rw [Exact.run_bind_ok ((run_search hwidth).trans (congrArg some hs))]
      show (if last = 0 then _ else _ : Exact UInt32).run = some (if last = 0 then _ else _)
      split <;> rfl

theorem Reached.within {bounds : Bounds} (h : t.Reached method bounds) : bounds.Within t := by
  induction h with
  | start => exact ⟨UInt32.zero_le, UInt32.le_refl _⟩
  | @round b next _ hlt hmoved ih =>
    rw [run_round hlt, Option.some.injEq] at hmoved
    cases hr : t.typeRow (midpoint b.low b.high + 1) with
    | error e => rw [hr] at hmoved; cases hmoved
    | ok row =>
      rw [hr] at hmoved
      cases hmoved
      exact ih.narrowed hlt row

/-- a search looks at rows of the table only -/
theorem Bounds.Within.probe (hw : b.Within t) (h : b.low < b.high) :
    ∃ probe, b.probe.run = some (.ok probe) ∧ 1 ≤ probe ∧ probe ≤ t.rowCount .typeDef ∧
      probe.toNat = b.low.toNat + b.width / 2 + 1 := by
  have hlt := UInt32.lt_iff_toNat_lt.1 h
  have hprobe := toNat_midpoint_succ h
  have hpositive : 1 ≤ midpoint b.low b.high + 1 := UInt32.le_iff_toNat_le.2 (by simp only [UInt32.reduceToNat]; omega)
  have hbelow : midpoint b.low b.high + 1 ≤ b.high := UInt32.le_iff_toNat_le.2 (by omega)
  exact ⟨_, Bounds.run_probe h, hpositive, UInt32.le_trans hbelow hw.bounded, hprobe⟩

/-! ## The run of a type -/

/-- the methods that a type owns -/
def exactRun (t : Tables) (row : UInt32) : Exact RowRange := do
  let start := (← Exact.ask (t.typeRow row)).methodList
  let stop ←
    if row < t.rowCount .typeDef then do
      let next ← Exact.sum row 1
      pure (← Exact.ask (t.typeRow next)).methodList
    else Exact.sum (t.rowCount .methodDef) 1
  if stop < start then throw (.malformed (.descendingRuns row start stop)) else return ⟨start, stop⟩

/-- where the table of methods is full, the end of the last run does not fit into a word -/
def Overflows (t : Tables) (row : UInt32) : Prop :=
  (∃ typeRow, t.typeRow row = .ok typeRow) ∧ t.rowCount .typeDef ≤ row ∧ t.rowCount .methodDef = 0xFFFFFFFF

theorem run_exactRun {row : UInt32} (h : ¬ t.Overflows row) : (t.exactRun row).run = some (t.methodRun row) := by
  unfold exactRun methodRun
  rw [Exact.run_ask_bind]
  cases hr : t.typeRow row with
  | error e => rfl
  | ok typeRow =>
    -- the end of the run, and what is left to do with it
    have hend : ∀ stop : UInt32, (if stop < typeRow.methodList then
          throw (.malformed (.descendingRuns row typeRow.methodList stop))
        else return ⟨typeRow.methodList, stop⟩ : Exact RowRange).run =
        some (if stop < typeRow.methodList then .error (.malformed (.descendingRuns row typeRow.methodList stop))
          else .ok ⟨typeRow.methodList, stop⟩) := by
      intro stop
      split <;> rfl
    by_cases hlt : row < t.rowCount .typeDef
    · have hsum : row.toNat + (1 : UInt32).toNat < 2 ^ 32 := by
        have hbelow := UInt32.lt_iff_toNat_lt.1 hlt
        have hcount := (t.rowCount .typeDef).toNat_lt
        simp only [UInt32.reduceToNat]
        omega
      simp only [if_pos hlt, pure_bind]
      rw [Exact.run_bind_ok (Exact.run_sum hsum), Exact.run_ask_bind]
      cases t.typeRow (row + 1) with
      | error e => rfl
      | ok next => exact hend next.methodList
    · have hsum : (t.rowCount .methodDef).toNat + (1 : UInt32).toNat < 2 ^ 32 := by
        have hfull : t.rowCount .methodDef ≠ 0xFFFFFFFF := fun hfull => h ⟨⟨typeRow, hr⟩, UInt32.not_lt.1 hlt, hfull⟩
        have hcount := (t.rowCount .methodDef).toNat_lt
        have hne := mt UInt32.toNat_inj.1 hfull
        simp only [UInt32.reduceToNat] at hne ⊢
        omega
      simp only [if_neg hlt]
      rw [Exact.run_bind_ok (Exact.run_sum hsum)]
      exact hend _

theorem run_exactRun_stuck {row : UInt32} (h : t.Overflows row) : (t.exactRun row).run = none := by
  obtain ⟨⟨typeRow, hr⟩, hlast, hfull⟩ := h
  unfold exactRun
  rw [Exact.run_ask_bind, hr]
  dsimp only
  rw [if_neg (UInt32.not_lt.2 hlast), hfull]
  exact Exact.run_bind_stuck (Exact.run_sum_stuck (by decide)) _

/-- an end that does not fit becomes 0, and no run but an empty one ends there -/
theorem methodRun_of_overflows {row : UInt32} {typeRow : TypeRow} (h : t.Overflows row)
    (hr : t.typeRow row = .ok typeRow) : t.methodRun row =
      if typeRow.methodList = 0 then .ok ⟨0, 0⟩ else .error (.malformed (.descendingRuns row typeRow.methodList 0)) := by
  obtain ⟨-, hlast, hfull⟩ := h
  have hend : t.rowCount .methodDef + 1 = 0 := by rw [hfull]; rfl
  unfold methodRun
  rw [hr]
  show (if row < t.rowCount .typeDef then _ else _ : Except Error RowRange) = _
  rw [if_neg (UInt32.not_lt.2 hlast), hend]
  show (if 0 < typeRow.methodList then _ else _ : Except Error RowRange) = _
  by_cases h0 : typeRow.methodList = 0
  · rw [if_pos h0, h0, if_neg (by decide)]
  · rw [if_neg h0, if_pos (UInt32.lt_of_le_of_ne UInt32.zero_le (Ne.symm h0))]

/-- **Sums and differences of rows fit into words, except for one end.** Whatever rows a host reports, the run of a type
meets no sum that does not fit, unless the type is the last one and the table of methods is full; there the end of the run
becomes 0, and a run that starts at a method fails. The search for the owner of a method never meets one, ends after at
most 32 rounds, keeps its bounds in order and within the table, and looks at rows of the table only. -/
theorem row_arithmetic_exact (t : Tables) :
    (∀ row, ((t.exactRun row).run = none ↔ t.Overflows row) ∧
      ∀ outcome, (t.exactRun row).run = some outcome → t.methodRun row = outcome) ∧
    (∀ row typeRow, t.Overflows row → t.typeRow row = .ok typeRow → t.methodRun row =
      if typeRow.methodList = 0 then .ok ⟨0, 0⟩ else .error (.malformed (.descendingRuns row typeRow.methodList 0))) ∧
    (∀ method, (t.exactOwner method).run = some (t.owner method)) ∧
    ∀ method bounds, t.Reached method bounds → bounds.low ≤ bounds.high ∧ bounds.high ≤ t.rowCount .typeDef ∧
      (bounds.low < bounds.high → ∃ probe, bounds.probe.run = some (.ok probe) ∧ 1 ≤ probe ∧
        probe ≤ t.rowCount .typeDef ∧ probe.toNat = bounds.low.toNat + bounds.width / 2 + 1) := by
  refine ⟨fun row => ?_, fun row typeRow => methodRun_of_overflows, run_exactOwner t, fun method bounds h => ?_⟩
  · by_cases h : t.Overflows row
    · rw [run_exactRun_stuck h]
      exact ⟨iff_of_true rfl h, nofun⟩
    · rw [run_exactRun h]
      exact ⟨iff_of_false nofun h, fun outcome ho => Option.some.inj ho⟩
  · exact ⟨h.within.ordered, h.within.bounded, h.within.probe⟩

/-- one type that starts at the first of as many methods as there are words -/
def fullTable : Tables where
  header := .ok ⟨"Full.dll", ⟨.replicate 16 7⟩⟩
  assembly := none
  files := []
  rowCount := fun table => if table = .typeDef then 1 else if table = .methodDef then 0xFFFFFFFF else 0
  typeRow := fun row => if row = 1 then .ok ⟨1, "T", "", 1, []⟩ else .error (.malformed (.rowMissing .typeDef row 1))
  methodRow := fun row => .error (.malformed (.rowMissing .methodDef row 0))
  encloser := fun _ => none
  nestedIn := fun _ => []
  attributes := fun _ => []

/-- the run of all these methods fails, although its type is there and starts in order -/
theorem row_arithmetic_exact_full :
    fullTable.Overflows 1 ∧ (fullTable.exactRun 1).run = none ∧
      fullTable.methodRun 1 = .error (.malformed (.descendingRuns 1 1 0)) ∧ fullTable.owner 0xFFFFFFFF = .ok 1 := by
  obtain ⟨hrun, hwrapped, howner, -⟩ := row_arithmetic_exact fullTable
  have hfull : fullTable.Overflows 1 := ⟨⟨_, rfl⟩, by decide, rfl⟩
  have hlast : (fullTable.exactOwner 0xFFFFFFFF).run = some (.ok 1) := by rfl
  exact ⟨hfull, (hrun 1).1.2 hfull, hwrapped 1 _ hfull rfl, Option.some.inj ((howner 0xFFFFFFFF).symm.trans hlast)⟩

end FrameSymbols.Tables
