/-
Actions on a state that answer or fail, and leave a state behind in both cases.

Reading a blob moves a cursor, and resolving a symbol extends what is remembered, also when it fails in the end. The lemmas
say what each way of building an action does from a given state.
-/
import FrameSymbols.Error

namespace FrameSymbols

/-- an action on a state of type `σ` -/
abbrev Action (σ : Type) := ExceptT Error (StateM σ)

namespace Action

variable {σ α β : Type}

def runFrom (a : Action σ α) (s : σ) : Except Error α × σ := a.run.run s

/-- the answer of an action, or nothing if it fails; the state that it leaves behind stays -/
def toOption (a : Action σ α) : Action σ (Option α) :=
  ExceptT.mk fun s => (.ok (a.runFrom s).1.toOption, (a.runFrom s).2)

@[simp] theorem runFrom_pure (x : α) (s : σ) : (pure x : Action σ α).runFrom s = (.ok x, s) := rfl

@[simp] theorem runFrom_throw (e : Error) (s : σ) : (throw e : Action σ α).runFrom s = (.error e, s) := rfl

@[simp] theorem runFrom_lift (x : Except Error α) (s : σ) : (liftM x : Action σ α).runFrom s = (x, s) := rfl

@[simp] theorem runFrom_get (s : σ) : (get : Action σ σ).runFrom s = (.ok s, s) := rfl

@[simp] theorem runFrom_set (s s' : σ) : (set s' : Action σ PUnit).runFrom s = (.ok ⟨⟩, s') := rfl

@[simp] theorem runFrom_modify (f : σ → σ) (s : σ) : (modify f : Action σ PUnit).runFrom s = (.ok ⟨⟩, f s) := rfl

theorem runFrom_bind (a : Action σ α) (f : α → Action σ β) (s : σ) :
    (a >>= f).runFrom s = match a.runFrom s with
      | (.ok x, s') => (f x).runFrom s'
      | (.error e, s') => (.error e, s') := by
  simp only [runFrom, ExceptT.run_bind, StateT.run_bind]
  rcases h : StateT.run (ExceptT.run a) s with ⟨_ | _, _⟩ <;> rfl

theorem runFrom_map (f : α → β) (a : Action σ α) (s : σ) :
    (f <$> a).runFrom s = ((a.runFrom s).1.map f, (a.runFrom s).2) := by
  rw [map_eq_pure_bind, runFrom_bind]
  rcases h : a.runFrom s with ⟨_ | _, _⟩ <;> rfl

@[simp] theorem runFrom_toOption (a : Action σ α) (s : σ) :
    a.toOption.runFrom s = (.ok (a.runFrom s).1.toOption, (a.runFrom s).2) := rfl

end Action

end FrameSymbols
