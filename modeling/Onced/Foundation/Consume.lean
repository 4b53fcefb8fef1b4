import Mathlib

/-! # Exact consumption by partial readers

A reader is a partial state transformer; `remaining` says which input a state
still has to offer. A reader consumes `input` when, in front of any following
symbols, it returns its value and leaves exactly those following symbols.
Consumption composes along the monad, so a hand-written decoder is checked
field by field against the bytes its encoder wrote.
-/

namespace Onced.Foundation

universe u

variable {σ α β : Type u} {γ : Type u}

/-- In front of any `rest`, the reader returns `value` and leaves `rest`. -/
def Consumes (remaining : σ → List γ) (reader : StateT σ Option α)
    (input : List γ) (value : α) : Prop :=
  ∀ state rest, remaining state = input ++ rest →
    ∃ next, reader.run state = some (value, next) ∧ remaining next = rest

namespace Consumes

variable {remaining : σ → List γ}

theorem pure (value : α) : Consumes remaining (pure value) [] value := by
  intro state rest hstate
  exact ⟨state, rfl, by simpa using hstate⟩

theorem bind {reader : StateT σ Option α} {continuation : α → StateT σ Option β}
    {first second : List γ} {value : α} {result : β}
    (hreader : Consumes remaining reader first value)
    (hcontinuation : Consumes remaining (continuation value) second result) :
    Consumes remaining (reader >>= continuation) (first ++ second) result := by
  intro state rest hstate
  rw [List.append_assoc] at hstate
  obtain ⟨middle, hrun, hmiddle⟩ := hreader state (second ++ rest) hstate
  obtain ⟨final, hfinal, hrest⟩ := hcontinuation middle rest hmiddle
  exact ⟨final, by simp [StateT.run_bind, hrun, hfinal], hrest⟩

/-- Post-processing a value that was read consumes nothing further. -/
theorem bind_pure {reader : StateT σ Option α} {input : List γ} {value : α} (f : α → β)
    (hreader : Consumes remaining reader input value) :
    Consumes remaining (reader >>= fun v => Pure.pure (f v)) input (f value) := by
  have hbind : Consumes remaining (reader >>= fun v => Pure.pure (f v)) (input ++ []) (f value) :=
    hreader.bind (pure (f value))
  rwa [List.append_nil] at hbind

/-- A partial conversion that succeeds on the value consumes nothing further. -/
theorem bind_lift {reader : StateT σ Option α} {input : List γ} {value : α} {f : α → Option β}
    {result : β} (hreader : Consumes remaining reader input value)
    (hresult : f value = some result) :
    Consumes remaining (reader >>= fun v => StateT.lift (f v)) input result := by
  intro state rest hstate
  obtain ⟨next, hrun, hnext⟩ := hreader state rest hstate
  exact ⟨next, by simp [StateT.run_bind, hrun, hresult], hnext⟩

end Consumes

/-- Whatever the reader accepts it consumes, so what comes after plays no part. -/
def Local (remaining : σ → List γ) (reader : StateT σ Option α) : Prop :=
  ∀ state value next, reader.run state = some (value, next) →
    ∃ input, remaining state = input ++ remaining next ∧ Consumes remaining reader input value

namespace Local

variable {remaining : σ → List γ}

theorem pure (value : α) : Local remaining (pure value) := by
  intro state result next hrun
  cases hrun
  exact ⟨[], rfl, Consumes.pure value⟩

theorem failure : Local remaining (failure : StateT σ Option α) := by
  intro state value next hrun
  cases hrun

theorem bind {reader : StateT σ Option α} {continuation : α → StateT σ Option β}
    (hreader : Local remaining reader)
    (hcontinuation : ∀ value, Local remaining (continuation value)) :
    Local remaining (reader >>= continuation) := by
  intro state result next hrun
  rw [StateT.run_bind] at hrun
  obtain ⟨⟨value, middle⟩, hfirst, hsecond⟩ := Option.bind_eq_some_iff.mp hrun
  obtain ⟨first, hstate, hconsumes⟩ := hreader state value middle hfirst
  obtain ⟨second, hmiddle, hrest⟩ := hcontinuation value middle result next hsecond
  refine ⟨first ++ second, ?_, hconsumes.bind hrest⟩
  rw [hstate, hmiddle, List.append_assoc]

/-- A partial conversion reads nothing. -/
theorem lift (result : Option α) : Local remaining (StateT.lift result : StateT σ Option α) := by
  intro state value next hrun
  cases result with
  | none => cases hrun
  | some found =>
      cases hrun
      refine ⟨[], rfl, fun state rest hstate => ⟨state, rfl, by simpa using hstate⟩⟩

/-- A reader that consumes an input accepts no strict first part of it. -/
theorem rejects_strict {reader : StateT σ Option α} (hlocal : Local remaining reader)
    {input : List γ} {value : α} (hconsumes : Consumes remaining reader input value) {whole : σ}
    (hwhole : remaining whole = input) {torn : σ} (hcut : remaining torn <+: input)
    (hstrict : remaining torn ≠ input) : reader.run torn = none := by
  cases hrun : reader.run torn with
  | none => rfl
  | some result =>
      obtain ⟨other, next⟩ := result
      obtain ⟨part, htorn, hpart⟩ := hlocal torn other next hrun
      obtain ⟨missing, hmissing⟩ := hcut
      -- on the whole input the reader stops at the same place, short of the end
      obtain ⟨last, hlast, hdone⟩ := hconsumes whole [] (by rw [hwhole, List.append_nil])
      obtain ⟨stop, hstop, hleft⟩ := hpart whole (remaining next ++ missing) (by
        rw [hwhole, ← hmissing, htorn, List.append_assoc])
      rw [hlast] at hstop
      cases hstop
      obtain ⟨-, rfl⟩ := List.append_eq_nil_iff.mp (hleft.symm.trans hdone)
      rw [List.append_nil] at hmissing
      contradiction

end Local

/-- Whatever the reader accepts is at least so many symbols. -/
def Spends (remaining : σ → List γ) (reader : StateT σ Option α) (amount : Nat) : Prop :=
  ∀ state value next, reader.run state = some (value, next) →
    (remaining next).length + amount ≤ (remaining state).length

namespace Spends

variable {remaining : σ → List γ}

theorem pure (value : α) : Spends remaining (pure value) 0 := by
  intro state result next hrun
  cases hrun
  exact le_refl _

theorem lift (result : Option α) : Spends remaining (StateT.lift result : StateT σ Option α) 0 := by
  intro state value next hrun
  cases result with
  | none => cases hrun
  | some found =>
      cases hrun
      exact le_refl _

theorem bind {reader : StateT σ Option α} {continuation : α → StateT σ Option β}
    {amount more : Nat} (hreader : Spends remaining reader amount)
    (hcontinuation : ∀ value, Spends remaining (continuation value) more) :
    Spends remaining (reader >>= continuation) (amount + more) := by
  intro state result next hrun
  rw [StateT.run_bind] at hrun
  obtain ⟨⟨value, middle⟩, hfirst, hsecond⟩ := Option.bind_eq_some_iff.mp hrun
  have hspent := hreader state value middle hfirst
  have hrest := hcontinuation value middle result next hsecond
  omega

theorem mono {reader : StateT σ Option α} {amount less : Nat}
    (hspends : Spends remaining reader amount) (hless : less ≤ amount) :
    Spends remaining reader less := by
  intro state value next hrun
  exact le_trans (Nat.add_le_add_left hless _) (hspends state value next hrun)

end Spends

end Onced.Foundation
