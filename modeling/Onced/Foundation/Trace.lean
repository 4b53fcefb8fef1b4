import Mathlib

/-! # Runs of machines that answer

A machine takes an event, answers it and moves on, or fails. An abstract
machine is a step relation between states that carries the event and the
answer. Invariants and simulations are proved for one step and hold along runs.
-/

namespace Onced.Foundation

universe u v w x y

variable {σ : Type u} {τ : Type v} {ε : Type w} {α : Type x} {ι : Type y}

/-- Feed the events one after the other and collect the answers. -/
def runSteps (step : σ → ε → Except ι (α × σ)) (state : σ) :
    List ε → Except ι (List α × σ)
  | [] => .ok ([], state)
  | event :: events =>
      match step state event with
      | .error failure => .error failure
      | .ok (answer, next) =>
          match runSteps step next events with
          | .error failure => .error failure
          | .ok (answers, last) => .ok (answer :: answers, last)

/-- The condition holds of every event in the state in which it is fed. -/
def Along (step : σ → ε → Except ι (α × σ)) (condition : σ → ε → Prop) : σ → List ε → Prop
  | _, [] => True
  | state, event :: events => condition state event ∧
      match step state event with
      | .ok (_, next) => Along step condition next events
      | .error _ => True

instance decidableAlong (step : σ → ε → Except ι (α × σ)) (condition : σ → ε → Prop)
    [∀ state event, Decidable (condition state event)] :
    (state : σ) → (events : List ε) → Decidable (Along step condition state events)
  | _, [] => isTrue trivial
  | state, event :: events =>
      match hstep : step state event with
      | .ok (_, next) =>
          have : Decidable (Along step condition next events) :=
            decidableAlong step condition next events
          decidable_of_iff (condition state event ∧ Along step condition next events)
            (by simp only [Along, hstep])
      | .error _ => decidable_of_iff (condition state event)
          (by simp only [Along, hstep, and_true])

/-- Steps of a relation one after the other, with their events and answers. -/
inductive Path (moves : τ → ε → α → τ → Prop) : τ → List ε → List α → τ → Prop where
  | nil (state : τ) : Path moves state [] [] state
  | cons {state next last : τ} {event : ε} {events : List ε} {answer : α} {answers : List α}
      (first : moves state event answer next) (rest : Path moves next events answers last) :
      Path moves state (event :: events) (answer :: answers) last

section Runs

variable {step : σ → ε → Except ι (α × σ)}

theorem along_of_forall {condition : σ → ε → Prop} {events : List ε}
    (hevents : ∀ event ∈ events, ∀ state, condition state event) (state : σ) :
    Along step condition state events := by
  induction events generalizing state with
  | nil => trivial
  | cons event events ih =>
      refine ⟨hevents event List.mem_cons_self state, ?_⟩
      split
      next next _ =>
        exact ih (fun other hother => hevents other (List.mem_cons_of_mem _ hother)) next
      next => trivial

/-- A condition that follows from an invariant holds along every run. -/
theorem along_of_invariant (invariant : σ → Prop) {condition : σ → ε → Prop} {events : List ε}
    (hcondition : ∀ event ∈ events, ∀ state, invariant state → condition state event)
    (hstep : ∀ event ∈ events, ∀ state answer next, invariant state →
      step state event = .ok (answer, next) → invariant next)
    {state : σ} (hstate : invariant state) : Along step condition state events := by
  induction events generalizing state with
  | nil => trivial
  | cons event events ih =>
      refine ⟨hcondition event List.mem_cons_self state hstate, ?_⟩
      split
      next hnext =>
        apply ih (fun other hother => hcondition other (List.mem_cons_of_mem _ hother))
          (fun other hother => hstep other (List.mem_cons_of_mem _ hother))
        exact hstep event List.mem_cons_self state _ _ hstate hnext
      next => trivial

theorem Along.tail {condition : σ → ε → Prop} {state next : σ} {event : ε} {events : List ε}
    {answer : α} (halong : Along step condition state (event :: events))
    (hstep : step state event = .ok (answer, next)) : Along step condition next events := by
  have hafter := halong.2
  rwa [hstep] at hafter

theorem runSteps_cons_ok {state next : σ} {event : ε} {answer : α}
    (hstep : step state event = .ok (answer, next)) (events : List ε) :
    runSteps step state (event :: events) =
      (runSteps step next events).map fun result => (answer :: result.1, result.2) := by
  simp only [runSteps, hstep]
  cases runSteps step next events <;> rfl

/-- What every step keeps, a whole run keeps. -/
theorem runSteps_invariant (invariant : σ → Prop) {events : List ε}
    (hstep : ∀ event ∈ events, ∀ state answer next, invariant state →
      step state event = .ok (answer, next) → invariant next)
    {state last : σ} (hstate : invariant state) {answers : List α}
    (hrun : runSteps step state events = .ok (answers, last)) : invariant last := by
  induction events generalizing state answers with
  | nil =>
      cases hrun
      exact hstate
  | cons event events ih =>
      unfold runSteps at hrun
      split at hrun
      next => contradiction
      next hfirst =>
        split at hrun
        next => contradiction
        next hrest =>
          cases hrun
          apply ih (fun other hother => hstep other (List.mem_cons_of_mem _ hother)) _ hrest
          exact hstep event List.mem_cons_self state _ _ hstate hfirst

/-- One run after the other. -/
theorem runSteps_append {state middle last : σ} {first second : List ε} {answers more : List α}
    (hfirst : runSteps step state first = .ok (answers, middle))
    (hsecond : runSteps step middle second = .ok (more, last)) :
    runSteps step state (first ++ second) = .ok (answers ++ more, last) := by
  induction first generalizing state answers with
  | nil =>
      cases hfirst
      exact hsecond
  | cons event first ih =>
      cases hstep : step state event with
      | error failure => simp [runSteps, hstep] at hfirst
      | ok result =>
          obtain ⟨answer, next⟩ := result
          rw [runSteps_cons_ok hstep] at hfirst
          cases hrest : runSteps step next first with
          | error failure => simp [hrest, Except.map] at hfirst
          | ok rest =>
              rw [hrest] at hfirst
              cases hfirst
              rw [List.cons_append, runSteps_cons_ok hstep, ih hrest]
              rfl

/-- Along two event lists is along the first and, from where it ends, along the second. -/
theorem along_append {condition : σ → ε → Prop} {state : σ} {first second : List ε} :
    Along step condition state (first ++ second) ↔
      Along step condition state first ∧ ∀ answers last,
        runSteps step state first = .ok (answers, last) → Along step condition last second := by
  induction first generalizing state with
  | nil => simp [Along, runSteps]
  | cons event first ih =>
      rw [List.cons_append, Along, Along, and_assoc]
      refine and_congr_right fun _ => ?_
      cases hstep : step state event with
      | error failure => simp [runSteps, hstep]
      | ok result =>
          obtain ⟨answer, next⟩ := result
          simp only [ih, runSteps_cons_ok hstep]
          refine and_congr_right fun _ => ⟨fun hsecond answers last hrun => ?_,
            fun hsecond answers last hrun => ?_⟩
          · cases hrest : runSteps step next first with
            | error failure => simp [hrest, Except.map] at hrun
            | ok rest =>
                obtain ⟨restAnswers, restLast⟩ := rest
                rw [hrest] at hrun
                cases hrun
                exact hsecond restAnswers restLast hrest
          · exact hsecond (answer :: answers) last (by rw [hrun]; rfl)

end Runs

section Relations

variable {moves : τ → ε → α → τ → Prop}

theorem Path.length_eq {state last : τ} {events : List ε} {answers : List α}
    (hpath : Path moves state events answers last) : answers.length = events.length := by
  induction hpath with
  | nil state => rfl
  | cons first rest ih => rw [List.length_cons, List.length_cons, ih]

/-- A path over two event lists is one path after the other. -/
theorem Path.split {state last : τ} {first second : List ε} {answers : List α}
    (hpath : Path moves state (first ++ second) answers last) :
    ∃ firstAnswers secondAnswers middle, answers = firstAnswers ++ secondAnswers ∧
      Path moves state first firstAnswers middle ∧ Path moves middle second secondAnswers last := by
  induction first generalizing state answers with
  | nil => exact ⟨[], answers, state, rfl, .nil state, hpath⟩
  | cons event first ih =>
      cases hpath with
      | cons hmove hrest =>
          obtain ⟨firstAnswers, secondAnswers, middle, rfl, hfirst, hsecond⟩ := ih hrest
          exact ⟨_ :: firstAnswers, secondAnswers, middle, rfl, .cons hmove hfirst, hsecond⟩

/-- What every step of a path says of its event and its answer. -/
theorem Path.forall₂ {holds : ε → α → Prop}
    (hmoves : ∀ state event answer next, moves state event answer next → holds event answer)
    {state last : τ} {events : List ε} {answers : List α}
    (hpath : Path moves state events answers last) : List.Forall₂ holds events answers := by
  induction hpath with
  | nil state => exact .nil
  | cons first rest ih => exact .cons (hmoves _ _ _ _ first) ih

/-- What every step of a path keeps, the whole path keeps. -/
theorem Path.invariant {state last : τ} {events : List ε} {answers : List α}
    (hpath : Path moves state events answers last) (invariant : τ → Prop)
    (hstep : ∀ event ∈ events, ∀ answer ∈ answers, ∀ state next, invariant state →
      moves state event answer next → invariant next)
    (hstate : invariant state) : invariant last := by
  induction hpath with
  | nil state => exact hstate
  | cons first rest ih =>
      apply ih
      · intro event hevent answer hanswer
        exact hstep event (List.mem_cons_of_mem _ hevent) answer (List.mem_cons_of_mem _ hanswer)
      · exact hstep _ List.mem_cons_self _ List.mem_cons_self _ _ hstate first

/-- What every answer of a path adds to an account, all answers add together. -/
theorem Path.collects {β : Type*} {told : τ → List β} {adds : α → List β}
    (hmoves : ∀ state event answer next, moves state event answer next →
      told state ++ adds answer = told next)
    {state last : τ} {events : List ε} {answers : List α}
    (hpath : Path moves state events answers last) :
    told state ++ answers.flatMap adds = told last := by
  induction hpath with
  | nil state => exact List.append_nil _
  | cons first rest ih =>
      rw [List.flatMap_cons, ← List.append_assoc, hmoves _ _ _ _ first, ih]

/-- An invariant that counts the steps, up to a limit. -/
theorem Path.counted {state last : τ} {events : List ε} {answers : List α}
    (hpath : Path moves state events answers last) (invariant : Nat → τ → Prop) {limit : Nat}
    (hstep : ∀ event ∈ events, ∀ count < limit, ∀ state answer next, invariant count state →
      moves state event answer next → invariant (count + 1) next)
    {count : Nat} (hcount : count + events.length ≤ limit) (hstate : invariant count state) :
    invariant (count + events.length) last := by
  induction hpath generalizing count with
  | nil state => exact hstate
  | @cons state next last event events answer answers first rest ih =>
      rw [List.length_cons] at hcount ⊢
      rw [show count + (events.length + 1) = count + 1 + events.length by omega]
      apply ih (fun other hother => hstep other (List.mem_cons_of_mem _ hother)) (by omega)
      exact hstep event List.mem_cons_self count (by omega) _ _ _ hstate first

/-- A step-by-step simulation lifts to runs: the machine runs through, and its
answers are those of a path of the relation. -/
theorem exists_path_of_simulation {step : σ → ε → Except ι (α × σ)} {related : σ → τ → Prop}
    {condition : σ → ε → Prop}
    (hstep : ∀ state abstract event, related state abstract → condition state event →
      ∃ answer next abstractNext, step state event = .ok (answer, next) ∧
        moves abstract event answer abstractNext ∧ related next abstractNext)
    {events : List ε} {state : σ} {abstract : τ} (hrelated : related state abstract)
    (halong : Along step condition state events) :
    ∃ answers last abstractLast, runSteps step state events = .ok (answers, last) ∧
      Path moves abstract events answers abstractLast ∧ related last abstractLast := by
  induction events generalizing state abstract with
  | nil => exact ⟨[], state, abstract, rfl, .nil abstract, hrelated⟩
  | cons event events ih =>
      obtain ⟨answer, next, abstractNext, hfirst, hmove, hnext⟩ :=
        hstep state abstract event hrelated halong.1
      obtain ⟨answers, last, abstractLast, hrest, hpath, hlast⟩ := ih hnext (halong.tail hfirst)
      refine ⟨answer :: answers, last, abstractLast, ?_, .cons hmove hpath, hlast⟩
      rw [runSteps_cons_ok hfirst, hrest]
      rfl

/-- A machine that keeps an invariant runs through, along a path of what its steps do. -/
theorem exists_path_of_invariant {step : σ → ε → Except ι (α × σ)}
    {moves : σ → ε → α → σ → Prop} (invariant : σ → Prop) {condition : σ → ε → Prop}
    (hstep : ∀ state event, invariant state → condition state event →
      ∃ answer next, step state event = .ok (answer, next) ∧ moves state event answer next ∧
        invariant next)
    {events : List ε} {state : σ} (hstate : invariant state)
    (halong : Along step condition state events) :
    ∃ answers last, runSteps step state events = .ok (answers, last) ∧
      Path moves state events answers last ∧ invariant last := by
  have hrelated : state = state ∧ invariant state := ⟨rfl, hstate⟩
  obtain ⟨answers, last, _, hrun, hpath, rfl, hlast⟩ :=
    @exists_path_of_simulation _ _ _ _ _ moves step (fun state again => state = again ∧
      invariant state) condition (by
        rintro state _ event ⟨rfl, hstate⟩ hcondition
        obtain ⟨answer, next, hfirst, hmove, hnext⟩ := hstep state event hstate hcondition
        exact ⟨answer, next, next, hfirst, hmove, rfl, hnext⟩) events state state hrelated halong
  exact ⟨answers, last, hrun, hpath, hlast⟩

/-- A machine that keeps an invariant and has run through went along a path of what its steps
do. -/
theorem path_of_runSteps {step : σ → ε → Except ι (α × σ)} {moves : σ → ε → α → σ → Prop}
    (invariant : σ → Prop)
    (hstep : ∀ state event answer next, invariant state → step state event = .ok (answer, next) →
      moves state event answer next ∧ invariant next)
    {events : List ε} {answers : List α} {state last : σ} (hstate : invariant state)
    (hrun : runSteps step state events = .ok (answers, last)) :
    Path moves state events answers last ∧ invariant last := by
  induction events generalizing state answers with
  | nil =>
      cases hrun
      exact ⟨.nil _, hstate⟩
  | cons event events ih =>
      unfold runSteps at hrun
      split at hrun
      next => contradiction
      next hfirst =>
        split at hrun
        next => contradiction
        next hrest =>
          cases hrun
          obtain ⟨hmove, hnext⟩ := hstep state event _ _ hstate hfirst
          obtain ⟨hpath, hlast⟩ := ih hnext hrest
          exact ⟨.cons hmove hpath, hlast⟩

/-- Paths of a machine's own steps are its runs. -/
theorem runSteps_of_path {step : σ → ε → Except ι (α × σ)} {state last : σ} {events : List ε}
    {answers : List α}
    (hpath : Path (fun state event answer next => step state event = .ok (answer, next)) state
      events answers last) : runSteps step state events = .ok (answers, last) := by
  induction hpath with
  | nil state => rfl
  | cons first rest ih =>
      rw [runSteps_cons_ok first, ih]
      rfl

end Relations

section Lockstep

variable {κ : Type y} {β : Type x}

/-- Two machines stay related when both take an event that meets the condition
on the second, and their answers agree. -/
def Lockstep (step : σ → ε → Except ι (α × σ)) (abstractStep : τ → ε → Except κ (β × τ))
    (related : σ → τ → Prop) (agree : α → β → Prop) (condition : τ → ε → Prop) : Prop :=
  ∀ state abstract event, related state abstract → condition abstract event →
    ∃ answer next abstractAnswer abstractNext, step state event = .ok (answer, next) ∧
      abstractStep abstract event = .ok (abstractAnswer, abstractNext) ∧
      agree answer abstractAnswer ∧ related next abstractNext

variable {step : σ → ε → Except ι (α × σ)} {abstractStep : τ → ε → Except κ (β × τ)}
  {related : σ → τ → Prop} {agree : α → β → Prop} {condition : τ → ε → Prop}

theorem Lockstep.mono (hlockstep : Lockstep step abstractStep related agree condition)
    {stronger : τ → ε → Prop}
    (himp : ∀ abstract event, stronger abstract event → condition abstract event) :
    Lockstep step abstractStep related agree stronger :=
  fun state abstract event hrelated hstronger =>
    hlockstep state abstract event hrelated (himp abstract event hstronger)

/-- A machine in lockstep with one that is in lockstep with a third. -/
theorem Lockstep.trans {υ : Type v} {γ : Type x} {μ : Type y}
    {thirdStep : υ → ε → Except μ (γ × υ)} {thirdRelated : τ → υ → Prop}
    {thirdAgree : β → γ → Prop} {thirdCondition : υ → ε → Prop}
    (hfirst : Lockstep step abstractStep related agree condition)
    (hsecond : Lockstep abstractStep thirdStep thirdRelated thirdAgree thirdCondition)
    (hcondition : ∀ abstract third event, thirdRelated abstract third →
      thirdCondition third event → condition abstract event) :
    Lockstep step thirdStep (fun state third => ∃ abstract, related state abstract ∧
        thirdRelated abstract third)
      (fun answer thirdAnswer => ∃ abstractAnswer, agree answer abstractAnswer ∧
        thirdAgree abstractAnswer thirdAnswer) thirdCondition := by
  rintro state third event ⟨abstract, hrelated, hthird⟩ hthirdCondition
  obtain ⟨answer, next, abstractAnswer, abstractNext, hstep, habstract, hagree, hnext⟩ :=
    hfirst state abstract event hrelated (hcondition abstract third event hthird hthirdCondition)
  obtain ⟨sameAnswer, sameNext, thirdAnswer, thirdNext, hsame, hthirdStep, hthirdAgree,
    hthirdNext⟩ :=
    hsecond abstract third event hthird hthirdCondition
  obtain ⟨rfl, rfl⟩ : abstractAnswer = sameAnswer ∧ abstractNext = sameNext := by
    simpa [habstract] using hsame
  exact ⟨answer, next, thirdAnswer, thirdNext, hstep, hthirdStep,
    ⟨abstractAnswer, hagree, hthirdAgree⟩, abstractNext, hnext, hthirdNext⟩

/-- Machines in lockstep run through together. -/
theorem Lockstep.run (hlockstep : Lockstep step abstractStep related agree condition)
    {events : List ε} {state : σ} {abstract : τ} (hrelated : related state abstract)
    (halong : Along abstractStep condition abstract events) :
    ∃ answers last abstractAnswers abstractLast,
      runSteps step state events = .ok (answers, last) ∧
      runSteps abstractStep abstract events = .ok (abstractAnswers, abstractLast) ∧
      List.Forall₂ agree answers abstractAnswers ∧ related last abstractLast := by
  induction events generalizing state abstract with
  | nil => exact ⟨[], state, [], abstract, rfl, rfl, .nil, hrelated⟩
  | cons event events ih =>
      obtain ⟨answer, next, abstractAnswer, abstractNext, hfirst, habstract, hagree, hnext⟩ :=
        hlockstep state abstract event hrelated halong.1
      obtain ⟨answers, last, abstractAnswers, abstractLast, hrest, habstractRest, hrests, hlast⟩ :=
        ih hnext (halong.tail habstract)
      refine ⟨answer :: answers, last, abstractAnswer :: abstractAnswers, abstractLast, ?_, ?_,
        .cons hagree hrests, hlast⟩
      · rw [runSteps_cons_ok hfirst, hrest]
        rfl
      · rw [runSteps_cons_ok habstract, habstractRest]
        rfl

/-- A condition along the second machine is one along the first. -/
theorem Lockstep.along (hlockstep : Lockstep step abstractStep related agree condition)
    {concrete : σ → ε → Prop}
    (hconcrete : ∀ state abstract event, related state abstract → condition abstract event →
      concrete state event)
    {events : List ε} {state : σ} {abstract : τ} (hrelated : related state abstract)
    (halong : Along abstractStep condition abstract events) :
    Along step concrete state events := by
  induction events generalizing state abstract with
  | nil => trivial
  | cons event events ih =>
      obtain ⟨answer, next, abstractAnswer, abstractNext, hfirst, habstract, -, hnext⟩ :=
        hlockstep state abstract event hrelated halong.1
      refine ⟨hconcrete state abstract event hrelated halong.1, ?_⟩
      rw [hfirst]
      exact ih hnext (halong.tail habstract)

end Lockstep

section Lists

/-- What stands on the right of a relation between lists has a partner on the left. -/
theorem exists_mem_of_forall₂ {α : Type u} {β : Type v} {related : α → β → Prop} {left : List α}
    {right : List β} (hrelated : List.Forall₂ related left right) {one : β} (hone : one ∈ right) :
    ∃ other ∈ left, related other one := by
  induction hrelated with
  | nil => exact absurd hone List.not_mem_nil
  | cons hfirst _ ih =>
      rcases List.mem_cons.mp hone with rfl | hone
      · exact ⟨_, List.mem_cons_self, hfirst⟩
      · obtain ⟨other, hother, hpair⟩ := ih hone
        exact ⟨other, List.mem_cons_of_mem _ hother, hpair⟩

theorem forall₂_trans {α : Type u} {β : Type v} {γ : Type w} {first : α → β → Prop}
    {second : β → γ → Prop}
    {both : α → γ → Prop} (hboth : ∀ a b c, first a b → second b c → both a c) {as : List α}
    {bs : List β} {cs : List γ} (hfirst : List.Forall₂ first as bs)
    (hsecond : List.Forall₂ second bs cs) : List.Forall₂ both as cs := by
  induction hfirst generalizing cs with
  | nil =>
      cases hsecond
      exact .nil
  | cons hhead _ ih =>
      cases hsecond with
      | cons hnext hrest => exact .cons (hboth _ _ _ hhead hnext) (ih hrest)

end Lists

end Onced.Foundation
