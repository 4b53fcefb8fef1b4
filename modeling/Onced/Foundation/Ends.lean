import Mathlib

/-! # What programs with state and errors guarantee

A program takes a state and either returns a value or fails, in a new state
both times. `Ends` says what holds in either case. With nothing owed to a
failure it is partial correctness, and with failure ruled out it is total
correctness. Every rule is an equivalence, so a program is taken apart by
rewriting.
-/

namespace Onced.Foundation

variable {ε σ τ α β : Type}

/-- From `state` the program returns with `post`, or fails with `stop`. -/
def Ends (program : EStateM ε σ α) (state : σ) (post : α → σ → Prop) (stop : ε → σ → Prop) :
    Prop :=
  match program state with
  | .ok value next => post value next
  | .error failure next => stop failure next

/-- From `state` the program returns, and with `post`. -/
abbrev Returns (program : EStateM ε σ α) (state : σ) (post : α → σ → Prop) : Prop :=
  Ends program state post fun _ _ => False

/-- Run a program on one part of the state. -/
def focus (part : σ → τ) (update : σ → τ → σ) (program : EStateM ε τ α) : EStateM ε σ α :=
  fun state =>
    match program (part state) with
    | .ok value next => .ok value (update state next)
    | .error failure next => .error failure (update state next)

/-- Fail unless the condition holds. -/
def require (condition : Prop) [Decidable condition] (failure : ε) : EStateM ε σ Unit :=
  if condition then pure () else throw failure

section Rules

variable {state : σ} {post : α → σ → Prop} {after : β → σ → Prop} {stop : ε → σ → Prop}

theorem ends_of_eq_ok {program : EStateM ε σ α} {value : α} {next : σ}
    (hprogram : program state = .ok value next) :
    Ends program state post stop ↔ post value next := by
  simp only [Ends, hprogram]

theorem returns_iff {program : EStateM ε σ α} :
    Returns program state post ↔
      ∃ value next, program state = .ok value next ∧ post value next := by
  unfold Returns Ends
  cases program state <;> simp

@[simp] theorem ends_pure (value : α) :
    Ends (pure value : EStateM ε σ α) state post stop ↔ post value state := Iff.rfl

@[simp] theorem ends_throw (failure : ε) :
    Ends (throw failure : EStateM ε σ α) state post stop ↔ stop failure state := Iff.rfl

@[simp] theorem ends_bind (program : EStateM ε σ α) (rest : α → EStateM ε σ β) :
    Ends (program >>= rest) state after stop ↔
      Ends program state (fun value next => Ends (rest value) next after stop) stop := by
  unfold Ends
  simp only [bind, EStateM.bind]
  cases program state <;> rfl

@[simp] theorem ends_map (f : α → β) (program : EStateM ε σ α) :
    Ends (f <$> program) state after stop ↔
      Ends program state (fun value next => after (f value) next) stop := by
  unfold Ends
  simp only [Functor.map, EStateM.map]
  cases program state <;> rfl

@[simp] theorem ends_get {seen : σ → σ → Prop} :
    Ends (get : EStateM ε σ σ) state seen stop ↔ seen state state := Iff.rfl

@[simp] theorem ends_modify {done : Unit → σ → Prop} (f : σ → σ) :
    Ends (modify f : EStateM ε σ Unit) state done stop ↔ done () (f state) := Iff.rfl

@[simp] theorem ends_modifyGet (f : σ → α × σ) :
    Ends (modifyGet f : EStateM ε σ α) state post stop ↔ post (f state).1 (f state).2 := Iff.rfl

@[simp] theorem ends_focus (part : σ → τ) (update : σ → τ → σ) (program : EStateM ε τ α) :
    Ends (focus part update program) state post stop ↔
      Ends program (part state) (fun value next => post value (update state next))
        (fun failure next => stop failure (update state next)) := by
  unfold Ends focus
  cases program (part state) <;> rfl

@[simp] theorem ends_require {done : Unit → σ → Prop} (condition : Prop) [Decidable condition]
    (failure : ε) :
    Ends (require condition failure : EStateM ε σ Unit) state done stop ↔
      (condition → done () state) ∧ (¬ condition → stop failure state) := by
  unfold require
  split
  next hcondition => simp [hcondition]
  next hcondition => simp [hcondition]

theorem ends_of_forall {program : EStateM ε σ α} (hpost : ∀ value next, post value next)
    (hstop : ∀ failure next, stop failure next) : Ends program state post stop := by
  unfold Ends
  split
  next value next _ => exact hpost value next
  next failure next _ => exact hstop failure next

/-- Weaker promises follow. -/
theorem Ends.mono {program : EStateM ε σ α} {weaker : α → σ → Prop} {looser : ε → σ → Prop}
    (hends : Ends program state post stop)
    (hpost : ∀ value next, post value next → weaker value next)
    (hstop : ∀ failure next, stop failure next → looser failure next) :
    Ends program state weaker looser := by
  unfold Ends at hends ⊢
  split at hends
  next value next _ => exact hpost value next hends
  next failure next _ => exact hstop failure next hends

/-- A loop ends with what each round keeps of the items still to come. -/
theorem ends_forM {ι : Type} {items : List ι} {body : ι → EStateM ε σ Unit}
    (invariant : List ι → σ → Prop)
    (hbody : ∀ item rest state, invariant (item :: rest) state →
      Ends (body item) state (fun _ next => invariant rest next) stop)
    (hstate : invariant items state) :
    Ends (items.forM body) state (fun _ next => invariant [] next) stop := by
  induction items generalizing state with
  | nil => exact hstate
  | cons item items ih =>
      change Ends (body item >>= fun _ => items.forM body) state _ stop
      rw [ends_bind]
      exact (hbody item items state hstate).mono (fun _ next hnext => ih hnext)
        fun _ _ hstop => hstop

end Rules

end Onced.Foundation
