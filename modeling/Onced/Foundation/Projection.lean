import Onced.Foundation.Trace

/-! # Runs as part of them sees them

A machine serves many parties. A smaller machine serves only one of them and is
fed the part of the events that concerns it. If every step is either matched by
the smaller machine or leaves it where it is, a whole run answers that party as
the smaller machine does.
-/

namespace Onced.Foundation

universe u v w x y z

variable {σ : Type u} {τ : Type v} {ε : Type w} {δ : Type w} {α : Type x} {β : Type x}
  {ι : Type y} {κ : Type z}

/-- The events of a run that concern the smaller machine, in its own terms, and how
the machine answers them. -/
def partOf (step : σ → ε → Except ι (α × σ)) (part : σ → ε → Option δ) (state : σ) :
    List ε → List (δ × α)
  | [] => []
  | event :: events =>
      match step state event with
      | .error _ => []
      | .ok (answer, next) =>
          ((part state event).map (·, answer)).toList ++ partOf step part next events

/-- A step that concerns the smaller machine is matched by it, and any other keeps
the machines related. -/
def Projects (step : σ → ε → Except ι (α × σ)) (small : τ → δ → Except κ (β × τ))
    (part : σ → ε → Option δ) (related : σ → τ → Prop) (agree : α → β → Prop)
    (condition : σ → ε → Prop) : Prop :=
  ∀ state own event, related state own → condition state event →
    ∃ answer next, step state event = .ok (answer, next) ∧
      (part state event = none → related next own) ∧
      ∀ ownEvent, part state event = some ownEvent →
        ∃ ownAnswer ownNext, small own ownEvent = .ok (ownAnswer, ownNext) ∧
          agree answer ownAnswer ∧ related next ownNext

section Runs

variable {step : σ → ε → Except ι (α × σ)} {small : τ → δ → Except κ (β × τ)}
  {part : σ → ε → Option δ} {related : σ → τ → Prop} {agree : α → β → Prop}
  {condition : σ → ε → Prop}

theorem partOf_cons {state next : σ} {event : ε} {answer : α}
    (hstep : step state event = .ok (answer, next)) (events : List ε) :
    partOf step part state (event :: events) =
      ((part state event).map (·, answer)).toList ++ partOf step part next events := by
  simp only [partOf, hstep]

/-- What one party sees of a run is a run of the machine that serves it alone. -/
theorem Projects.run (hprojects : Projects step small part related agree condition)
    {events : List ε} {state : σ} {own : τ} (hrelated : related state own)
    (halong : Along step condition state events) :
    ∃ answers last ownAnswers ownLast, runSteps step state events = .ok (answers, last) ∧
      runSteps small own ((partOf step part state events).map Prod.fst) =
        .ok (ownAnswers, ownLast) ∧
      List.Forall₂ agree ((partOf step part state events).map Prod.snd) ownAnswers ∧
      related last ownLast := by
  induction events generalizing state own with
  | nil => exact ⟨[], state, [], own, rfl, rfl, .nil, hrelated⟩
  | cons event events ih =>
      obtain ⟨answer, next, hstep, hunseen, hseen⟩ := hprojects state own event hrelated halong.1
      rw [partOf_cons hstep]
      have hwhole : ∀ {answers : List α} {last : σ},
          runSteps step next events = .ok (answers, last) →
          runSteps step state (event :: events) = .ok (answer :: answers, last) := by
        intro answers last hrest
        rw [runSteps_cons_ok hstep, hrest]
        rfl
      cases hpart : part state event with
      | none =>
          obtain ⟨answers, last, ownAnswers, ownLast, hrest, hown, hagree, hlast⟩ :=
            ih (hunseen hpart) (halong.tail hstep)
          exact ⟨_, last, ownAnswers, ownLast, hwhole hrest, hown, hagree, hlast⟩
      | some ownEvent =>
          obtain ⟨ownAnswer, ownNext, hownStep, hfirst, hnext⟩ := hseen ownEvent hpart
          obtain ⟨answers, last, ownAnswers, ownLast, hrest, hown, hagree, hlast⟩ :=
            ih hnext (halong.tail hstep)
          refine ⟨_, last, ownAnswer :: ownAnswers, ownLast, hwhole hrest, ?_,
            .cons hfirst hagree, hlast⟩
          simp only [Option.map_some, Option.toList_some, List.singleton_append, List.map_cons]
          rw [runSteps_cons_ok hownStep, hown]
          rfl

end Runs

section Places

variable {γ : Type u} (keep : γ → Bool)

/-- How many of the items kept come before a place. -/
def rank (items : List γ) (place : Nat) : Nat := (items.take place).countP keep

variable {keep}

theorem filter_split {items : List γ} {place : Nat} {item : γ} (hitem : items[place]? = some item)
    (hkeep : keep item) :
    items.filter keep = (items.take place).filter keep ++
      item :: (items.drop (place + 1)).filter keep := by
  obtain ⟨hbound, rfl⟩ := List.getElem?_eq_some_iff.mp hitem
  conv_lhs => rw [← List.take_append_drop place items, List.drop_eq_getElem_cons hbound]
  rw [List.filter_append, List.filter_cons_of_pos hkeep]

/-- An item that is kept stands in its rank among those kept. -/
theorem getElem?_filter_rank {items : List γ} {place : Nat} {item : γ}
    (hitem : items[place]? = some item) (hkeep : keep item) :
    (items.filter keep)[rank keep items place]? = some item := by
  rw [filter_split hitem hkeep, rank, List.countP_eq_length_filter,
    List.getElem?_append_right (Nat.le_refl _), Nat.sub_self, List.getElem?_cons_zero]

/-- An item is the last of those kept exactly if none of the later ones is kept. -/
theorem rank_succ_eq_length_iff {items : List γ} {place : Nat} {item : γ}
    (hitem : items[place]? = some item) (hkeep : keep item) :
    rank keep items place + 1 = (items.filter keep).length ↔
      ∀ later ∈ items.drop (place + 1), ¬ keep later := by
  rw [filter_split hitem hkeep, List.length_append, List.length_cons, rank,
    List.countP_eq_length_filter, ← List.filter_eq_nil_iff, ← List.length_eq_zero_iff]
  omega

end Places

end Onced.Foundation
