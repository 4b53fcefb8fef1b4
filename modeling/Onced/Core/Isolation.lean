import Onced.Core.Lifetime
import Onced.Core.Serving
import Onced.Foundation.Projection

/-! # Keys do not interfere

An engine serves all keys from one store and one fence counter. Within one
lifetime a key cannot tell: its requests are answered as by an engine that serves
no other key, up to the fences. A token is known to that engine by its rank among
the tokens of the key.
-/

namespace Onced

open Foundation

namespace Issue

def isFor (key : IdempotencyKey) (issue : Issue) : Bool := issue.token.key = key

@[simp] theorem isFor_iff {key : IdempotencyKey} {issue : Issue} :
    issue.isFor key ↔ issue.token.key = key := decide_eq_true_iff

end Issue

/-- What the operation is to an engine that serves the key alone. Flushing and
pruning concern every key. -/
def Operation.part (key : IdempotencyKey) (issued : List Issue) : Operation → Option Operation
  | .begin begun fingerprint nowMs =>
      if begun = key then some (.begin begun fingerprint nowMs) else none
  | .complete ticket outcome nowMs =>
      (issued[ticket]?.filter (Issue.isFor key)).map fun _ =>
        .complete (rank (Issue.isFor key) issued ticket) outcome nowMs
  | .flush => some .flush
  | .pruneExpired iteration nowMs => some (.pruneExpired iteration nowMs)

namespace View

/-- The second view is what the first shows of the key, up to fences. -/
structure Shows (key : IdempotencyKey) (view alone : View) : Prop where
  issued : (view.issued.filter (Issue.isFor key)).map Issue.unfenced =
    alone.issued.map Issue.unfenced
  state : (view.states key).map KeyState.unfenced = (alone.states key).map KeyState.unfenced

end View

/-! ## Currency in terms of ranks -/

namespace Session

variable {issued : List Issue} {ticket : Nat} {issue : Issue}

/-- The latest token of a key is the last of them. -/
theorem latest_iff_rank (hissue : issued[ticket]? = some issue) :
    Latest issued ticket ↔
      rank (Issue.isFor issue.token.key) issued ticket + 1 =
        (issued.filter (Issue.isFor issue.token.key)).length := by
  rw [rank_succ_eq_length_iff hissue (Issue.isFor_iff.mpr rfl)]
  constructor
  · intro hlatest later hlater hkey
    obtain ⟨place, hplace⟩ := List.mem_iff_getElem?.mp hlater
    rw [List.getElem?_drop] at hplace
    exact hlatest issue later _ hissue hplace (by omega) (Issue.isFor_iff.mp hkey)
  · intro hnone one later place hone hlater hlt hkey
    obtain rfl := Option.some.inj (hissue.symm.trans hone)
    refine hnone later (List.mem_iff_getElem?.mpr ⟨place - (ticket + 1), ?_⟩)
      (Issue.isFor_iff.mpr hkey)
    rw [List.getElem?_drop, Nat.add_sub_cancel' hlt]
    exact hlater

end Session

namespace Generations

variable {issued : List Issue} {accepted : List (Nat × CachedOutcome)}
  {states : IdempotencyKey → Option KeyState} {nextFence : UInt64}

/-- A token is current exactly if it is the latest of its key. -/
theorem current_iff (hgenerations : Generations issued accepted states nextFence) {ticket : Nat}
    {issue : Issue} (hissue : issued[ticket]? = some issue) {fence : Fence}
    {fingerprint : RequestFingerprint} {leaseExpiresAtMs : UInt64}
    (hstate : states issue.token.key = some (.inProgress fence fingerprint leaseExpiresAtMs)) :
    fence = issue.token.fence ↔ Session.Latest issued ticket := by
  constructor
  · rintro rfl
    exact (hgenerations.holder hissue hstate).2.1
  · intro hlatest
    obtain ⟨place, hplace, hplaceLatest, -⟩ := hgenerations.running _ _ _ _ hstate
    rcases Nat.lt_trichotomy place ticket with hlt | rfl | hlt
    · exact (hplaceLatest _ issue ticket hplace hissue hlt rfl).elim
    · exact congrArg (fun one => one.token.fence) (Option.some.inj (hplace.symm.trans hissue))
    · exact (hlatest issue _ place hissue hplace hlt rfl).elim

end Generations

namespace View.Shows

variable {key : IdempotencyKey} {view alone : View} {leaseMs ttlMs : UInt64}

/-- The engine that serves the key alone issues no other tokens. -/
theorem alone_isFor (hshows : Shows key view alone) {issue : Issue}
    (hissue : issue ∈ alone.issued) : issue.isFor key := by
  have hmem : issue.unfenced ∈ (view.issued.filter (Issue.isFor key)).map Issue.unfenced := by
    rw [hshows.issued]
    exact List.mem_map_of_mem hissue
  obtain ⟨one, hone, hsame⟩ := List.mem_map.mp hmem
  rw [Issue.isFor_iff, ← Issue.isFor_iff.mp (List.mem_filter.mp hone).2]
  exact (congrArg Prod.fst hsame).symm

theorem alone_filter (hshows : Shows key view alone) :
    alone.issued.filter (Issue.isFor key) = alone.issued :=
  List.filter_eq_self.mpr fun _ hissue => hshows.alone_isFor hissue

theorem alone_rank (hshows : Shows key view alone) {place : Nat}
    (hplace : place ≤ alone.issued.length) :
    rank (Issue.isFor key) alone.issued place = place := by
  have htake : ∀ issue ∈ alone.issued.take place, issue.isFor key := fun _ hissue =>
    hshows.alone_isFor (List.mem_of_mem_take hissue)
  rw [rank, List.countP_eq_length.mpr htake, List.length_take, Nat.min_eq_left hplace]

theorem length (hshows : Shows key view alone) :
    (view.issued.filter (Issue.isFor key)).length = alone.issued.length := by
  simpa using congrArg List.length hshows.issued

theorem action (hshows : Shows key view alone) (ttlMs : UInt64) (fingerprint : RequestFingerprint)
    (nowMs : UInt64) :
    Engine.action ttlMs fingerprint nowMs (view.states key) =
      Engine.action ttlMs fingerprint nowMs (alone.states key) := by
  rw [← Engine.action_unfenced, hshows.state, Engine.action_unfenced]

/-- If there is room for one more token of all, there is room for one more of the key. -/
theorem roomy (hshows : Shows key view alone) {fingerprint : RequestFingerprint} {nowMs : UInt64}
    (hroomy : view.Roomy ttlMs (.begin key fingerprint nowMs)) :
    alone.Roomy ttlMs (.begin key fingerprint nowMs) := by
  intro haction
  have hroom := hroomy ((hshows.action ttlMs fingerprint nowMs).trans haction)
  have hle := List.length_filter_le (Issue.isFor key) view.issued
  rw [hshows.length] at hle
  omega

/-- A token of the key has a twin of its rank. -/
theorem twin (hshows : Shows key view alone) {ticket : Nat} {issue : Issue}
    (hissue : view.issued[ticket]? = some issue) (hkey : issue.token.key = key) :
    ∃ twin, alone.issued[rank (Issue.isFor key) view.issued ticket]? = some twin ∧
      twin.token.key = key := by
  have hranked := getElem?_filter_rank hissue (Issue.isFor_iff.mpr hkey)
  have hmapped : (alone.issued.map Issue.unfenced)[rank (Issue.isFor key) view.issued ticket]? =
      some issue.unfenced := by
    rw [← hshows.issued, List.getElem?_map, hranked, Option.map_some]
  rw [List.getElem?_map] at hmapped
  obtain ⟨twin, htwin, -⟩ := Option.map_eq_some_iff.mp hmapped
  exact ⟨twin, htwin, Issue.isFor_iff.mp (hshows.alone_isFor (List.mem_of_getElem? htwin))⟩

theorem latest_iff (hshows : Shows key view alone) {ticket : Nat} {issue twin : Issue}
    (hissue : view.issued[ticket]? = some issue) (hkey : issue.token.key = key)
    (htwin : alone.issued[rank (Issue.isFor key) view.issued ticket]? = some twin) :
    Session.Latest view.issued ticket ↔
      Session.Latest alone.issued (rank (Issue.isFor key) view.issued ticket) := by
  have htwinKey := Issue.isFor_iff.mp (hshows.alone_isFor (List.mem_of_getElem? htwin))
  have hplace := (List.getElem?_eq_some_iff.mp htwin).1
  rw [Session.latest_iff_rank hissue, Session.latest_iff_rank htwin, hkey, htwinKey,
    hshows.alone_rank (Nat.le_of_lt hplace), hshows.alone_filter, hshows.length]

/-- What both sides issue and store for the key decides what is shown next. -/
theorem after (hshows : Shows key view alone) {operation own : Operation} {plan ownPlan : Plan}
    (hissue : ((operation.issue (some plan.answer)).filter (Issue.isFor key)).map Issue.unfenced =
      (own.issue (some ownPlan.answer)).map Issue.unfenced)
    (hstate : (plan.effect key (view.states key)).map KeyState.unfenced =
      (ownPlan.effect key (alone.states key)).map KeyState.unfenced) :
    Shows key (view.after operation plan) (alone.after own ownPlan) := by
  refine ⟨?_, hstate⟩
  simp only [View.after, List.filter_append, List.map_append, hshows.issued]
  rw [← Option.toList_filter, ← Option.toList_map, hissue, Option.toList_map]

/-- Neither side stores or issues anything. -/
theorem reads (hshows : Shows key view alone) {operation own : Operation}
    {answer ownAnswer : Answer} (hissue : operation.issue (some answer) = none)
    (hownIssue : own.issue (some ownAnswer) = none) (nextFence ownNextFence : UInt64) :
    Shows key (view.after operation ⟨none, nextFence, answer⟩)
      (alone.after own ⟨none, ownNextFence, ownAnswer⟩) := by
  apply hshows.after
  · simp only [hissue, hownIssue, Option.filter_none, Option.map_none]
  · exact hshows.state

/-- An operation that issues nothing for the key and leaves its record alone is not seen. -/
theorem unseen (hshows : Shows key view alone) {operation : Operation} {plan : Plan}
    (hissue : ∀ issue ∈ operation.issue (some plan.answer), issue.token.key ≠ key)
    (hstate : plan.effect key (view.states key) = view.states key) :
    Shows key (view.after operation plan) alone := by
  refine ⟨?_, ?_⟩
  · have hnone : (operation.issue (some plan.answer)).toList.filter (Issue.isFor key) = [] := by
      rw [List.filter_eq_nil_iff]
      intro issue hmem hfor
      exact hissue issue (Option.mem_toList.mp hmem) (Issue.isFor_iff.mp hfor)
    simp only [View.after, List.filter_append, hnone, List.append_nil]
    exact hshows.issued
  · simp only [View.after, hstate]
    exact hshows.state

/-- A begin of another key is not seen. -/
theorem begins_elsewhere (hshows : Shows key view alone) {begun : IdempotencyKey}
    (hbegun : begun ≠ key) (fingerprint : RequestFingerprint) (nowMs : UInt64) :
    Shows key (view.after (.begin begun fingerprint nowMs)
      ((EngineCall.begin begun fingerprint nowMs).plan leaseMs ttlMs view.nextFence
        view.states)) alone := by
  have hplanned :=
    EngineCall.planned leaseMs ttlMs view.nextFence view.states (.begin begun fingerprint nowMs)
  generalize (EngineCall.begin begun fingerprint nowMs).plan leaseMs ttlMs view.nextFence
    view.states = plan at hplanned ⊢
  cases hplanned with
  | starts =>
      apply hshows.unseen
      · intro issue hissue
        cases hissue
        exact hbegun
      · simp only [Plan.effect, StoreCall.effect, hbegun, if_false]
  | replays => exact hshows.unseen (by simp [Operation.issue]) rfl
  | waits => exact hshows.unseen (by simp [Operation.issue]) rfl
  | mismatches => exact hshows.unseen (by simp [Operation.issue]) rfl

/-- A completion with a token of another key is not seen. -/
theorem completes_elsewhere (hshows : Shows key view alone) {token : RunToken}
    (htoken : token.key ≠ key) (ticket : Nat) (outcome : CachedOutcome) (nowMs : UInt64) :
    Shows key (view.after (.complete ticket outcome nowMs)
      ((EngineCall.complete token outcome nowMs).plan leaseMs ttlMs view.nextFence
        view.states)) alone := by
  have hplanned :=
    EngineCall.planned leaseMs ttlMs view.nextFence view.states (.complete token outcome nowMs)
  generalize (EngineCall.complete token outcome nowMs).plan leaseMs ttlMs view.nextFence
    view.states = plan at hplanned ⊢
  apply hshows.unseen (by simp [Operation.issue])
  cases hplanned with
  | commits => simp only [Plan.effect, StoreCall.effect, htoken, if_false]
  | refuses => rfl

/-- A begin of the key is answered alike. -/
theorem begins (hshows : Shows key view alone) (fingerprint : RequestFingerprint)
    (nowMs : UInt64) :
    ((EngineCall.begin key fingerprint nowMs).plan leaseMs ttlMs view.nextFence
        view.states).answer.unfenced =
      ((EngineCall.begin key fingerprint nowMs).plan leaseMs ttlMs alone.nextFence
        alone.states).answer.unfenced ∧
    Shows key
      (view.after (.begin key fingerprint nowMs)
        ((EngineCall.begin key fingerprint nowMs).plan leaseMs ttlMs view.nextFence view.states))
      (alone.after (.begin key fingerprint nowMs)
        ((EngineCall.begin key fingerprint nowMs).plan leaseMs ttlMs alone.nextFence
          alone.states)) := by
  have haction := hshows.action ttlMs fingerprint nowMs
  cases halone : Engine.action ttlMs fingerprint nowMs (alone.states key) with
  | start =>
      rw [halone] at haction
      rw [EngineCall.plan_begin_start haction, EngineCall.plan_begin_start halone]
      refine ⟨rfl, hshows.after ?_ ?_⟩
      · simp [Operation.issue, Issue.isFor, Issue.unfenced]
      · simp only [Plan.effect, StoreCall.effect, if_true]
        rfl
  | replay outcome =>
      rw [halone] at haction
      simp only [EngineCall.plan, haction, halone]
      exact ⟨trivial, hshows.reads rfl rfl _ _⟩
  | inProgress =>
      rw [halone] at haction
      simp only [EngineCall.plan, haction, halone]
      exact ⟨trivial, hshows.reads rfl rfl _ _⟩
  | mismatch =>
      rw [halone] at haction
      simp only [EngineCall.plan, haction, halone]
      exact ⟨trivial, hshows.reads rfl rfl _ _⟩

/-- A completion with a token of the key is answered alike if both engines are in order. -/
theorem completes (hshows : Shows key view alone)
    {accepted aloneAccepted : List (Nat × CachedOutcome)}
    (hgenerations : Generations view.issued accepted view.states view.nextFence)
    (haloneGenerations : Generations alone.issued aloneAccepted alone.states alone.nextFence)
    {ticket : Nat} {issue twin : Issue} (hissue : view.issued[ticket]? = some issue)
    (hkey : issue.token.key = key)
    (htwin : alone.issued[rank (Issue.isFor key) view.issued ticket]? = some twin)
    (htwinKey : twin.token.key = key) (outcome : CachedOutcome) (nowMs : UInt64) :
    ((EngineCall.complete issue.token outcome nowMs).plan leaseMs ttlMs view.nextFence
        view.states).answer.unfenced =
      ((EngineCall.complete twin.token outcome nowMs).plan leaseMs ttlMs alone.nextFence
        alone.states).answer.unfenced ∧
    Shows key
      (view.after (.complete ticket outcome nowMs)
        ((EngineCall.complete issue.token outcome nowMs).plan leaseMs ttlMs view.nextFence
          view.states))
      (alone.after (.complete (rank (Issue.isFor key) view.issued ticket) outcome nowMs)
        ((EngineCall.complete twin.token outcome nowMs).plan leaseMs ttlMs alone.nextFence
          alone.states)) := by
  have hsame := hshows.state
  match hone : view.states key, hother : alone.states key with
  | none, none =>
      simp only [EngineCall.plan, hkey, htwinKey, hone, hother]
      exact ⟨trivial, hshows.reads rfl rfl _ _⟩
  | some (.completed ..), some (.completed ..) =>
      simp only [EngineCall.plan, hkey, htwinKey, hone, hother]
      exact ⟨trivial, hshows.reads rfl rfl _ _⟩
  | some (.inProgress fence fingerprint lease), some (.inProgress aloneFence other _) =>
      obtain ⟨rfl, -⟩ : fingerprint = other ∧ _ := by
        simpa [hone, hother, KeyState.unfenced] using hsame
      -- on either side the token is current exactly if it is the latest of the key
      have hcurrent : fence = issue.token.fence ↔ aloneFence = twin.token.fence := by
        rw [hgenerations.current_iff hissue (hkey ▸ hone),
          haloneGenerations.current_iff htwin (htwinKey ▸ hother)]
        exact hshows.latest_iff hissue hkey htwin
      by_cases hholder : fence = issue.token.fence
      · have hholderTwin := hcurrent.mp hholder
        subst hholder hholderTwin
        rw [EngineCall.plan_complete_holder (hkey ▸ hone),
          EngineCall.plan_complete_holder (htwinKey ▸ hother)]
        refine ⟨rfl, hshows.after rfl ?_⟩
        simp only [Plan.effect, StoreCall.effect, hkey, htwinKey, if_true]
      · have hstale : ¬ aloneFence = twin.token.fence := fun heq => hholder (hcurrent.mpr heq)
        simp only [EngineCall.plan, hkey, htwinKey, hone, hother, hholder, hstale, if_false]
        exact ⟨trivial, hshows.reads rfl rfl _ _⟩
  | none, some _ => simp [hone, hother] at hsame
  | some _, none => simp [hone, hother] at hsame
  | some (.inProgress ..), some (.completed ..) =>
      simp [hone, hother, KeyState.unfenced] at hsame
  | some (.completed ..), some (.inProgress ..) =>
      simp [hone, hother, KeyState.unfenced] at hsame

/-- Pruning drops the record of the key on both sides or on neither. -/
theorem prunes (hshows : Shows key view alone) (iteration : Iteration) (nowMs : UInt64) :
    Shows key
      (view.after (.pruneExpired iteration nowMs)
        ((EngineCall.pruneExpired iteration nowMs).plan leaseMs ttlMs view.nextFence view.states))
      (alone.after (.pruneExpired iteration nowMs)
        ((EngineCall.pruneExpired iteration nowMs).plan leaseMs ttlMs alone.nextFence
          alone.states)) := by
  apply hshows.after rfl
  simp only [EngineCall.plan, Plan.effect, StoreCall.effect]
  rw [Engine.filter_keeps_unfenced, hshows.state, Engine.filter_keeps_unfenced]

/-- An operation that does not concern the key is not seen. -/
theorem elsewhere (hshows : Shows key view alone) (leaseMs ttlMs : UInt64)
    {operation : Operation} {call : EngineCall} (hcall : operation.call view.issued = some call)
    (hpart : operation.part key view.issued = none) :
    Shows key (view.after operation (call.plan leaseMs ttlMs view.nextFence view.states))
      alone := by
  cases operation with
  | begin begun fingerprint nowMs =>
      cases hcall
      refine hshows.begins_elsewhere (fun hbegun => ?_) fingerprint nowMs
      simp [Operation.part, hbegun] at hpart
  | complete ticket outcome nowMs =>
      obtain ⟨issue, hissue, rfl⟩ := Option.map_eq_some_iff.mp hcall
      refine hshows.completes_elsewhere (fun hkey => ?_) ticket outcome nowMs
      simp [Operation.part, hissue, Issue.isFor, hkey] at hpart
  | flush => cases hpart
  | pruneExpired iteration nowMs => cases hpart

/-- An operation that concerns the key is answered alike. -/
theorem own (hshows : Shows key view alone) {accepted aloneAccepted : List (Nat × CachedOutcome)}
    (hgenerations : Generations view.issued accepted view.states view.nextFence)
    (haloneGenerations : Generations alone.issued aloneAccepted alone.states alone.nextFence)
    (leaseMs : UInt64) {operation own : Operation} {call : EngineCall}
    (hcall : operation.call view.issued = some call) (hroomy : view.Roomy ttlMs operation)
    (hpart : operation.part key view.issued = some own) :
    ∃ ownCall, own.call alone.issued = some ownCall ∧ alone.Roomy ttlMs own ∧
      (call.plan leaseMs ttlMs view.nextFence view.states).answer.unfenced =
        (ownCall.plan leaseMs ttlMs alone.nextFence alone.states).answer.unfenced ∧
      Shows key (view.after operation (call.plan leaseMs ttlMs view.nextFence view.states))
        (alone.after own (ownCall.plan leaseMs ttlMs alone.nextFence alone.states)) := by
  cases operation with
  | begin begun fingerprint nowMs =>
      obtain ⟨rfl, rfl⟩ : begun = key ∧ Operation.begin begun fingerprint nowMs = own := by
        simpa [Operation.part] using hpart
      cases hcall
      exact ⟨_, rfl, hshows.roomy hroomy, hshows.begins fingerprint nowMs⟩
  | complete ticket outcome nowMs =>
      obtain ⟨issue, hissue, rfl⟩ := Option.map_eq_some_iff.mp hcall
      obtain ⟨hkey, rfl⟩ : issue.token.key = key ∧
          .complete (rank (Issue.isFor key) view.issued ticket) outcome nowMs = own := by
        simpa [Operation.part, hissue, Option.filter_some] using hpart
      obtain ⟨twin, htwin, htwinKey⟩ := hshows.twin hissue hkey
      refine ⟨.complete twin.token outcome nowMs, ?_, trivial, ?_⟩
      · exact Option.map_eq_some_iff.mpr ⟨twin, htwin, rfl⟩
      · exact hshows.completes hgenerations haloneGenerations hissue hkey htwin htwinKey
          outcome nowMs
  | flush =>
      cases hcall
      cases hpart
      exact ⟨_, rfl, trivial, rfl, hshows.after rfl hshows.state⟩
  | pruneExpired iteration nowMs =>
      cases hcall
      cases hpart
      exact ⟨_, rfl, trivial, rfl, hshows.prunes iteration nowMs⟩

end View.Shows

/-! ## Sessions of all keys and of one -/

namespace Session

variable {σ τ : Type} [Store σ] [Store τ]

/-- The tokens, the completions and the records of the session fit together. -/
def InOrder (session : Session (Engine σ)) : Prop :=
  Generations session.issued session.accepted (Store.get session.node.store)
    session.node.nextFence

/-- The operation does not exhaust the fence counter. -/
def HasRoom (session : Session (Engine σ)) (operation : Operation) : Prop :=
  session.view.Roomy session.node.ttlMs operation

instance (session : Session (Engine σ)) : DecidablePred session.HasRoom :=
  fun operation => inferInstanceAs (Decidable (session.view.Roomy _ operation))

/-- Both sessions are in order, and the second is what the first shows of the key. -/
structure Confines (key : IdempotencyKey) (session : Session (Engine σ))
    (alone : Session (Engine τ)) : Prop where
  leaseMs : session.node.leaseMs = alone.node.leaseMs
  ttlMs : session.node.ttlMs = alone.node.ttlMs
  inOrder : session.InOrder
  aloneInOrder : alone.InOrder
  shows : session.view.Shows key alone.view

/-- An operation carried out as planned keeps a session in order. -/
theorem InOrder.ask [LawfulStore σ] {session : Session (Engine σ)} (hinOrder : session.InOrder)
    {operation : Operation} {call : EngineCall}
    (hcall : operation.call session.issued = some call) (hroom : session.HasRoom operation) :
    ∃ next, session.ask operation = .ok (some (session.node.plan call).answer, next) ∧
      next.view = session.view.after operation (session.node.plan call) ∧
      next.node.leaseMs = session.node.leaseMs ∧ next.node.ttlMs = session.node.ttlMs ∧
      next.InOrder := by
  obtain ⟨next, hask, hrun, hview, hlease, httl⟩ := ask_plans hcall
  refine ⟨next, hask, hview, hlease, httl, ?_⟩
  have hnext : next = session.record (.op .done operation)
      (some (session.node.plan call).answer) next.node := by
    rw [ask_returns hcall hrun] at hask
    exact (congrArg Prod.snd (Except.ok.inj hask)).symm
  have hafter := hinOrder.after hcall hroom (rfl : _ = session.node.plan call)
  have hissued : next.issued = _ := congrArg View.issued hview
  have hstates : Store.get next.node.store = _ := congrArg View.states hview
  have hnextFence : next.node.nextFence = _ := congrArg View.nextFence hview
  have haccepted : next.accepted = session.accepted ++
      (operation.acceptance (some (session.node.plan call).answer)).toList := by
    rw [hnext]
    rfl
  rw [InOrder, hissued, hstates, hnextFence, haccepted]
  exact hafter

/-- What the operation is to a session of the key alone. -/
def part {ν : Type} (key : IdempotencyKey) (session : Session ν) (operation : Operation) :
    Option Operation :=
  operation.part key session.issued

/-- Only a completion without a token does not reach the engine, and it concerns no key. -/
theorem part_of_skips {ν : Type} {key : IdempotencyKey} {session : Session ν}
    {operation : Operation} (hcall : operation.call session.issued = none) :
    session.part key operation = none := by
  cases operation with
  | complete ticket outcome nowMs =>
      have hnone : session.issued[ticket]? = none := Option.map_eq_none_iff.mp hcall
      simp [part, Operation.part, hnone]
  | begin => cases hcall
  | flush => cases hcall
  | pruneExpired => cases hcall

/-- An operation is answered as by the engine that serves the key alone, or is not
seen by it. -/
theorem projects [LawfulStore σ] [LawfulStore τ] (key : IdempotencyKey) :
    Projects (ask : Session (Engine σ) → Operation → _)
      (ask : Session (Engine τ) → Operation → _) (part key) (Confines key)
      (fun answer own => answer.map Answer.unfenced = own.map Answer.unfenced) HasRoom := by
  intro session alone operation hconfines hroom
  cases hcall : operation.call session.issued with
  | none =>
      refine ⟨none, session, ask_skips hcall, fun _ => hconfines, ?_⟩
      rw [part_of_skips hcall]
      rintro own ⟨⟩
  | some call =>
      obtain ⟨next, hask, hview, hlease, httl, hinOrder⟩ := hconfines.inOrder.ask hcall hroom
      refine ⟨_, next, hask, fun hpart => ?_, fun own hpart => ?_⟩
      · refine ⟨hlease.trans hconfines.leaseMs, httl.trans hconfines.ttlMs, hinOrder,
          hconfines.aloneInOrder, ?_⟩
        rw [hview]
        exact hconfines.shows.elsewhere _ _ hcall hpart
      · obtain ⟨ownCall, hownCall, hownRoom, hanswer, hshows⟩ := hconfines.shows.own
          hconfines.inOrder hconfines.aloneInOrder session.node.leaseMs hcall hroom hpart
        have hplan : ownCall.plan session.node.leaseMs session.node.ttlMs alone.view.nextFence
            alone.view.states = alone.node.plan ownCall := by
          rw [hconfines.leaseMs, hconfines.ttlMs]
          rfl
        rw [hplan] at hanswer hshows
        rw [hconfines.ttlMs] at hownRoom
        obtain ⟨ownNext, hownAsk, hownView, hownLease, hownTtl, hownInOrder⟩ :=
          hconfines.aloneInOrder.ask hownCall hownRoom
        rw [← hownView] at hshows
        refine ⟨_, ownNext, hownAsk, congrArg some hanswer, ?_, ?_, hinOrder, hownInOrder, ?_⟩
        · rw [hlease, hownLease, hconfines.leaseMs]
        · rw [httl, hownTtl, hconfines.ttlMs]
        · rw [hview]
          exact hshows

/-- The engine has not served yet: its store is empty and its first fence is `1`. -/
structure Unused (engine : Engine σ) : Prop where
  states : ∀ key, Store.get engine.store key = none
  nextFence : engine.nextFence = 1

theorem Unused.inOrder {engine : Engine σ} (hunused : Unused engine) : (start engine).InOrder := by
  rw [InOrder, start, hunused.nextFence]
  exact .empty hunused.states

/-- Within one lifetime, with fewer than `2 ^ 64 - 1` runs, the operations on one key
are answered, up to fences, as if there were no other keys: the engine that is
given only them, with its tokens renumbered, gives the same answers and ends with
the same record of the key. -/
theorem keys_isolated [LawfulStore σ] [LawfulStore τ] (key : IdempotencyKey) {engine : Engine σ}
    {alone : Engine τ} (hengine : Unused engine) (halone : Unused alone)
    (hlease : engine.leaseMs = alone.leaseMs) (httl : engine.ttlMs = alone.ttlMs)
    (operations : List Operation) (hroom : Along ask HasRoom (start engine) operations) :
    ∃ answers last ownAnswers ownLast,
      runSteps ask (start engine) operations = .ok (answers, last) ∧
      runSteps ask (start alone) ((partOf ask (part key) (start engine) operations).map Prod.fst) =
        .ok (ownAnswers, ownLast) ∧
      List.Forall₂ (fun answer own => answer.map Answer.unfenced = own.map Answer.unfenced)
        ((partOf ask (part key) (start engine) operations).map Prod.snd) ownAnswers ∧
      (Store.get last.node.store key).map KeyState.unfenced =
        (Store.get ownLast.node.store key).map KeyState.unfenced := by
  have hconfines : Confines key (start engine) (start alone) := by
    refine ⟨hlease, httl, hengine.inOrder, halone.inOrder, rfl, ?_⟩
    simp only [view, start, hengine.states, halone.states]
  obtain ⟨answers, last, ownAnswers, ownLast, hrun, hown, hagree, hlast⟩ :=
    (projects key).run hconfines hroom
  exact ⟨answers, last, ownAnswers, ownLast, hrun, hown, hagree, hlast.shows.state⟩

/-- The key `k` is taken over, completed and replayed while `l` is served in between. -/
def crossing : List Operation :=
  [.begin ⟨"k"⟩ ⟨List.Vector.replicate 32 0⟩ 0, .begin ⟨"l"⟩ ⟨List.Vector.replicate 32 1⟩ 1,
    .begin ⟨"k"⟩ ⟨List.Vector.replicate 32 0⟩ 10, .complete 1 ⟨201, ∅, [1]⟩ 11,
    .complete 0 ⟨200, ∅, [0]⟩ 12, .complete 2 ⟨200, ∅, [2]⟩ 13,
    .begin ⟨"k"⟩ ⟨List.Vector.replicate 32 0⟩ 14]

theorem keys_isolated_crossing :
    (partOf ask (part ⟨"k"⟩) (start (Memory.fresh 10 100)) crossing).map Prod.fst =
      [.begin ⟨"k"⟩ ⟨List.Vector.replicate 32 0⟩ 0, .begin ⟨"k"⟩ ⟨List.Vector.replicate 32 0⟩ 10,
        .complete 0 ⟨200, ∅, [0]⟩ 12, .complete 1 ⟨200, ∅, [2]⟩ 13,
        .begin ⟨"k"⟩ ⟨List.Vector.replicate 32 0⟩ 14] ∧
    ∃ answers last ownAnswers ownLast,
      runSteps ask (start (Memory.fresh 10 100)) crossing = .ok (answers, last) ∧
      runSteps ask (start (Memory.fresh 10 100))
        ((partOf ask (part ⟨"k"⟩) (start (Memory.fresh 10 100)) crossing).map Prod.fst) =
          .ok (ownAnswers, ownLast) ∧
      ownAnswers = [some (.begun (.run ⟨⟨"k"⟩, ⟨1⟩⟩)), some (.begun (.run ⟨⟨"k"⟩, ⟨2⟩⟩)),
        some (.completed (.error .staleFence)), some (.completed (.ok ())),
        some (.begun (.replay ⟨200, ∅, [2]⟩))] := by
  refine ⟨rfl, ?_⟩
  have hunused : Unused (Memory.fresh 10 100) :=
    ⟨fun _ => by simp [Memory.fresh, Engine.withTtl, MemoryStore.new], rfl⟩
  obtain ⟨answers, last, ownAnswers, ownLast, hrun, hown, -, -⟩ :=
    keys_isolated ⟨"k"⟩ hunused hunused rfl rfl crossing (by decide)
  refine ⟨answers, last, ownAnswers, ownLast, hrun, hown, ?_⟩
  cases hown
  rfl

end Session

end Onced
