import Mathlib

/-! # Readers that may panic

A checked reader can stop, as a partial one does, and can also panic where it reaches
outside of its input. It is safe if a partial reader without these checks says what it
does: then no check ever fails. Safety composes along the monad.
-/

namespace Onced.Foundation

universe u

variable {σ τ ι α β : Type u}

/-- A reader that may stop or panic. -/
abbrev CheckedReader (σ ι : Type u) := StateT σ (OptionT (Except ι))

/-- A value that may be missing. -/
def orStop (result : Option α) : OptionT (Except ι) α := OptionT.mk (.ok result)

/-- A value that may not be computed without a panic. -/
def orPanic (result : Except ι α) : OptionT (Except ι) α := OptionT.mk (result.map some)

section Outcomes

variable (value : α) (rest : α → OptionT (Except ι) β)

@[simp] theorem orStop_some_bind : orStop (some value) >>= rest = rest value := rfl

@[simp] theorem orPanic_ok_bind : orPanic (.ok value) >>= rest = rest value := rfl

end Outcomes

/-- Where the invariant holds the checked reader does what the plain one does, and the
invariant is kept. -/
def Safe (view : τ → σ) (invariant : τ → Prop) (checked : CheckedReader σ ι α)
    (plain : StateT τ Option α) : Prop :=
  ∀ state, invariant state →
    (checked.run (view state)).run =
      .ok ((plain.run state).map fun result => (result.1, view result.2)) ∧
    ∀ result, plain.run state = some result → invariant result.2

namespace Safe

variable {view : τ → σ} {invariant : τ → Prop}

theorem pure (value : α) :
    Safe view invariant (pure value : CheckedReader σ ι α) (Pure.pure value) := by
  intro state hstate
  refine ⟨rfl, fun result hresult => ?_⟩
  cases hresult
  exact hstate

theorem failure : Safe view invariant (failure : CheckedReader σ ι α) Alternative.failure := by
  intro state hstate
  exact ⟨rfl, fun result hresult => nomatch hresult⟩

theorem lift (result : Option α) :
    Safe view invariant (StateT.lift (orStop result) : CheckedReader σ ι α)
      (StateT.lift result) := by
  intro state hstate
  cases result with
  | none => exact ⟨rfl, fun result hresult => nomatch hresult⟩
  | some value =>
      refine ⟨rfl, fun result hresult => ?_⟩
      cases hresult
      exact hstate

/-- What is known of the first value may be used for the rest. -/
theorem bind_where {checked : CheckedReader σ ι α} {plain : StateT τ Option α}
    {checkedRest : α → CheckedReader σ ι β} {plainRest : α → StateT τ Option β}
    (hfirst : Safe view invariant checked plain) (known : α → Prop)
    (hknown : ∀ state result, plain.run state = some result → known result.1)
    (hrest : ∀ value, known value → Safe view invariant (checkedRest value) (plainRest value)) :
    Safe view invariant (checked >>= checkedRest) (plain >>= plainRest) := by
  intro state hstate
  obtain ⟨hrun, hkept⟩ := hfirst state hstate
  rw [StateT.run_bind, StateT.run_bind, OptionT.run_bind, hrun]
  cases hplain : plain.run state with
  | none => exact ⟨rfl, fun result hresult => nomatch hresult⟩
  | some first => exact hrest first.1 (hknown state first hplain) first.2 (hkept first hplain)

theorem bind {checked : CheckedReader σ ι α} {plain : StateT τ Option α}
    {checkedRest : α → CheckedReader σ ι β} {plainRest : α → StateT τ Option β}
    (hfirst : Safe view invariant checked plain)
    (hrest : ∀ value, Safe view invariant (checkedRest value) (plainRest value)) :
    Safe view invariant (checked >>= checkedRest) (plain >>= plainRest) := by
  exact hfirst.bind_where (fun _ => True) (fun _ _ _ => trivial) fun value _ => hrest value

end Safe

end Onced.Foundation
