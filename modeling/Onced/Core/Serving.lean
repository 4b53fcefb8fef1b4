import Onced.Core.Discipline

/-! # Engines over any lawful store

An engine reads its store only through the states of keys. Over two lawful
stores with the same states it gives the same answers; if the fences differ as
well, it gives the same answers up to fences for as long as both are disciplined.
-/

namespace Onced

open Foundation

variable {σ τ : Type} [Store σ] [Store τ]

namespace Session

/-- Carry out an operation with I/O that succeeds. An operation with a token that
was never issued does not reach the engine. -/
def ask (session : Session (Engine σ)) (operation : Operation) :
    Except Panic (Option Answer × Session (Engine σ)) :=
  match operation.call session.issued with
  | none => .ok (none, session)
  | some call =>
      match call.run .done session.node with
      | .ok answer node =>
          .ok (some answer, session.record (.op .done operation) (some answer) node)
      | .error panic _ => .error panic

theorem ask_skips {session : Session (Engine σ)} {operation : Operation}
    (hcall : operation.call session.issued = none) :
    session.ask operation = .ok (none, session) := by
  rw [ask, hcall]

theorem ask_returns {session : Session (Engine σ)} {operation : Operation} {call : EngineCall}
    (hcall : operation.call session.issued = some call) {answer : Answer} {node : Engine σ}
    (hrun : call.run .done session.node = .ok answer node) :
    session.ask operation =
      .ok (some answer, session.record (.op .done operation) (some answer) node) := by
  simp only [ask, hcall, hrun]

/-- Over a lawful store every operation is carried out as planned. -/
theorem ask_plans [LawfulStore σ] {session : Session (Engine σ)} {operation : Operation}
    {call : EngineCall} (hcall : operation.call session.issued = some call) :
    ∃ next, session.ask operation = .ok (some (session.node.plan call).answer, next) ∧
      call.run .done session.node = .ok (session.node.plan call).answer next.node ∧
      next.view = session.view.after operation (session.node.plan call) ∧
      next.node.leaseMs = session.node.leaseMs ∧ next.node.ttlMs = session.node.ttlMs := by
  obtain ⟨node, hrun, hlease, httl, hnextFence, hstates⟩ := Engine.run_lawful call session.node
  refine ⟨_, ask_returns hcall hrun, hrun, ?_, hlease, httl⟩
  simp only [view, record, hnextFence, funext hstates]
  rfl

/-! ## The same states -/

/-- Two sessions whose engines read the same. -/
structure Alike (one : Session (Engine σ)) (other : Session (Engine τ)) : Prop where
  leaseMs : one.node.leaseMs = other.node.leaseMs
  ttlMs : one.node.ttlMs = other.node.ttlMs
  view : one.view = other.view

/-- Engines that read the same answer the same. -/
theorem lockstep_alike [LawfulStore σ] [LawfulStore τ] (condition : Session (Engine τ) →
    Operation → Prop) :
    Lockstep (ask : Session (Engine σ) → Operation → _)
      (ask : Session (Engine τ) → Operation → _) Alike Eq condition := by
  intro one other operation halike _
  have hissued : one.issued = other.issued := congrArg View.issued halike.view
  cases hcall : operation.call one.issued with
  | none =>
      exact ⟨none, one, none, other, ask_skips hcall, ask_skips (hissued ▸ hcall), rfl, halike⟩
  | some call =>
      obtain ⟨next, hask, -, hview, hlease, httl⟩ := ask_plans hcall
      obtain ⟨otherNext, hotherAsk, -, hotherView, hotherLease, hotherTtl⟩ :=
        @ask_plans τ _ _ other operation call (hissued ▸ hcall)
      have hplan : one.node.plan call = other.node.plan call := by
        have hstates := congrArg View.states halike.view
        have hnextFence := congrArg View.nextFence halike.view
        simp only [Session.view] at hstates hnextFence
        rw [Engine.plan, Engine.plan, halike.leaseMs, halike.ttlMs, hstates, hnextFence]
      refine ⟨_, next, _, otherNext, hask, hotherAsk, by rw [hplan], ?_, ?_, ?_⟩
      · rw [hlease, hotherLease, halike.leaseMs]
      · rw [httl, hotherTtl, halike.ttlMs]
      · rw [hview, hotherView, hplan, halike.view]

/-! ## The same states up to fences -/

/-- Two sessions whose engines read the same up to fences. -/
structure Paired (one : Session (Engine σ)) (other : Session (Engine τ)) : Prop where
  leaseMs : one.node.leaseMs = other.node.leaseMs
  ttlMs : one.node.ttlMs = other.node.ttlMs
  twins : Twins one.view other.view

/-- No stored outcome has expired, and the counter is not exhausted. -/
def Steady (session : Session (Engine σ)) (operation : Operation) : Prop :=
  session.view.Timely session.node.ttlMs operation ∧
    session.view.Roomy session.node.ttlMs operation

/-- Engines that read the same up to fences answer the same up to fences. -/
theorem lockstep_paired [LawfulStore σ] [LawfulStore τ] :
    Lockstep (ask : Session (Engine σ) → Operation → _)
      (ask : Session (Engine τ) → Operation → _) Paired
      (fun answer other => answer.map Answer.unfenced = other.map Answer.unfenced) Steady := by
  rintro one other operation hpaired ⟨htimely, hroomy⟩
  rcases hpaired.twins.operation other.node.leaseMs htimely hroomy with
    ⟨hcall, hotherCall⟩ | ⟨call, twin, hcall, hotherCall, hanswer, htwins⟩
  · exact ⟨none, one, none, other, ask_skips hcall, ask_skips hotherCall, rfl, hpaired⟩
  · obtain ⟨next, hask, -, hview, hlease, httl⟩ := ask_plans hcall
    obtain ⟨otherNext, hotherAsk, -, hotherView, hotherLease, hotherTtl⟩ := ask_plans hotherCall
    have hplan : one.node.plan call = call.plan other.node.leaseMs other.node.ttlMs
        one.view.nextFence one.view.states := by
      rw [Engine.plan, hpaired.leaseMs, hpaired.ttlMs]
      rfl
    refine ⟨_, next, _, otherNext, hask, hotherAsk, ?_, ?_, ?_, ?_⟩
    · rw [hplan]
      exact congrArg some hanswer
    · rw [hlease, hotherLease, hpaired.leaseMs]
    · rw [httl, hotherTtl, hpaired.ttlMs]
    · rw [hview, hotherView, hplan]
      exact htwins

end Session

end Onced
