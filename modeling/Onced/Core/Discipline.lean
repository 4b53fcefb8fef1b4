import Onced.Core.Session

/-! # The fence discipline of an engine

As long as no outcome expires and the counter does not wrap, the fences of a
key grow with every token issued for it. A token is then current exactly if it
is the latest of its key, a fact that does not mention fences: two engines that
mint different fences still treat the same tokens in the same way.
-/

namespace Onced

/-- The record without its fence. -/
def KeyState.unfenced : KeyState → KeyState
  | .inProgress _ fingerprint leaseExpiresAtMs => .inProgress ⟨0⟩ fingerprint leaseExpiresAtMs
  | .completed fingerprint outcome completedAtMs => .completed fingerprint outcome completedAtMs

/-- The answer without the fence of a run token. -/
def Answer.unfenced : Answer → Answer
  | .begun (.run token) => .begun (.run ⟨token.key, ⟨0⟩⟩)
  | answer => answer

/-- The issue without its fence. -/
def Issue.unfenced (issue : Issue) : IdempotencyKey × RequestFingerprint :=
  (issue.token.key, issue.fingerprint)

/-- Whether pruning keeps a record does not depend on its fence. -/
theorem Engine.filter_keeps_unfenced (ttlMs nowMs : UInt64) (key : IdempotencyKey)
    (state : Option KeyState) :
    (state.filter (keeps ttlMs nowMs key)).map KeyState.unfenced =
      (state.map KeyState.unfenced).filter (keeps ttlMs nowMs key) := by
  match state with
  | none => rfl
  | some (.inProgress ..) => rfl
  | some (.completed _ _ completedAtMs) =>
      by_cases hlive : nowMs < saturatingAdd completedAtMs ttlMs
      · simp [Option.filter, keeps, KeyState.unfenced, hlive]
      · simp [Option.filter, keeps, KeyState.unfenced, hlive]

/-- What a begin does with a key does not depend on its fence. -/
theorem Engine.action_unfenced (ttlMs : UInt64) (fingerprint : RequestFingerprint)
    (nowMs : UInt64) (state : Option KeyState) :
    action ttlMs fingerprint nowMs (state.map KeyState.unfenced) =
      action ttlMs fingerprint nowMs state := by
  match state with
  | none => rfl
  | some (.inProgress ..) => rfl
  | some (.completed ..) => rfl

theorem Session.latest_congr {one other : List Issue}
    (hissued : one.map Issue.unfenced = other.map Issue.unfenced) {ticket : Nat}
    (hlatest : Latest one ticket) : Latest other ticket := by
  have hsame : ∀ {place : Nat} {issue : Issue}, other[place]? = some issue →
      ∃ twin, one[place]? = some twin ∧ twin.token.key = issue.token.key := by
    intro place issue hissue
    have hmapped : (one.map Issue.unfenced)[place]? = some issue.unfenced := by
      rw [hissued, List.getElem?_map, hissue, Option.map_some]
    rw [List.getElem?_map] at hmapped
    obtain ⟨twin, htwin, hunfenced⟩ := Option.map_eq_some_iff.mp hmapped
    exact ⟨twin, htwin, congrArg Prod.fst hunfenced⟩
  intro issue later place hissue hlater hlt
  obtain ⟨issueTwin, hissueTwin, hissueKey⟩ := hsame hissue
  obtain ⟨laterTwin, hlaterTwin, hlaterKey⟩ := hsame hlater
  rw [← hissueKey, ← hlaterKey]
  exact hlatest issueTwin laterTwin place hissueTwin hlaterTwin hlt

/-- Every issued key has a record; while it is in progress its fence is the
largest issued for it and carried by the latest token only. All fences are below
the counter, and the counter counts the tokens at most. -/
structure Disciplined (issued : List Issue) (states : IdempotencyKey → Option KeyState)
    (nextFence : UInt64) : Prop where
  known : ∀ issue ∈ issued, states issue.token.key ≠ none
  current : ∀ ticket issue fence fingerprint leaseExpiresAtMs, issued[ticket]? = some issue →
    states issue.token.key = some (.inProgress fence fingerprint leaseExpiresAtMs) →
    (issue.token.fence = fence ↔ Session.Latest issued ticket)
  atMost : ∀ issue ∈ issued, ∀ fence fingerprint leaseExpiresAtMs,
    states issue.token.key = some (.inProgress fence fingerprint leaseExpiresAtMs) →
    issue.token.fence.val ≤ fence.val
  below : ∀ key fence fingerprint leaseExpiresAtMs,
    states key = some (.inProgress fence fingerprint leaseExpiresAtMs) → fence.val < nextFence
  bound : nextFence.toNat ≤ issued.length + 1

namespace Disciplined

variable {issued : List Issue} {states : IdempotencyKey → Option KeyState} {nextFence : UInt64}

theorem empty {states : IdempotencyKey → Option KeyState} (hstates : ∀ key, states key = none) :
    Disciplined [] states 1 where
  known issue hissue := absurd hissue List.not_mem_nil
  current ticket issue _ _ _ hissue _ := by simp at hissue
  atMost issue hissue := absurd hissue List.not_mem_nil
  below key fence _ _ hstate := by simp [hstates key] at hstate
  bound := by decide

/-- A restarted engine may count again from any fence above those in progress. -/
theorem reseed (hdisciplined : Disciplined issued states nextFence) {seed : UInt64}
    (hbelow : ∀ key fence fingerprint leaseExpiresAtMs,
      states key = some (.inProgress fence fingerprint leaseExpiresAtMs) → fence.val < seed)
    (hbound : seed.toNat ≤ issued.length + 1) : Disciplined issued states seed :=
  { hdisciplined with below := hbelow, bound := hbound }

/-- Completing a key settles which of its tokens are current: none. -/
theorem complete (hdisciplined : Disciplined issued states nextFence) (key : IdempotencyKey)
    (fingerprint : RequestFingerprint) (outcome : CachedOutcome) (nowMs : UInt64) :
    Disciplined issued (fun other =>
      (StoreCall.put key (.completed fingerprint outcome nowMs)).effect other (states other))
      nextFence := by
  have hkept : ∀ {other fence fingerprint' lease},
      (StoreCall.put key (.completed fingerprint outcome nowMs)).effect other (states other) =
        some (.inProgress fence fingerprint' lease) →
      states other = some (.inProgress fence fingerprint' lease) := by
    intro other fence fingerprint' lease hstate
    simp only [StoreCall.effect] at hstate
    split at hstate
    next => simp at hstate
    next => exact hstate
  refine ⟨?_, ?_, ?_, ?_, hdisciplined.bound⟩
  · intro issue hissue
    simp only [StoreCall.effect]
    split
    next => simp
    next => exact hdisciplined.known issue hissue
  · intro ticket issue fence _ _ hissue hstate
    exact hdisciplined.current ticket issue fence _ _ hissue (hkept hstate)
  · intro issue hissue fence _ _ hstate
    exact hdisciplined.atMost issue hissue fence _ _ (hkept hstate)
  · intro other fence _ _ hstate
    exact hdisciplined.below other fence _ _ (hkept hstate)

/-- The next fence is larger than any fence issued for a key that is not completed. -/
theorem lt_nextFence (hdisciplined : Disciplined issued states nextFence) {issue : Issue}
    (hissue : issue ∈ issued) (hopen : ∀ fingerprint outcome completedAtMs,
      states issue.token.key ≠ some (.completed fingerprint outcome completedAtMs)) :
    issue.token.fence.val < nextFence := by
  match hstate : states issue.token.key with
  | none => exact absurd hstate (hdisciplined.known issue hissue)
  | some (.completed ..) => exact absurd hstate (hopen _ _ _)
  | some (.inProgress fence fingerprint lease) =>
      have hle := hdisciplined.atMost issue hissue fence fingerprint lease hstate
      have hlt := hdisciplined.below _ fence fingerprint lease hstate
      rw [UInt64.le_iff_toNat_le] at hle
      rw [UInt64.lt_iff_toNat_lt] at hlt ⊢
      omega

/-- A start mints a fence above all earlier ones of its key. -/
theorem start (hdisciplined : Disciplined issued states nextFence) {key : IdempotencyKey}
    (hopen : ∀ fingerprint outcome completedAtMs,
      states key ≠ some (.completed fingerprint outcome completedAtMs))
    (hroom : issued.length + 1 < 2 ^ 64 - 1) (fingerprint : RequestFingerprint) (lease : UInt64) :
    Disciplined (issued ++ [⟨⟨key, ⟨nextFence⟩⟩, fingerprint⟩])
      (fun other => (StoreCall.put key (.inProgress ⟨nextFence⟩ fingerprint lease)).effect other
        (states other)) (nextFence + 1) := by
  have hbound := hdisciplined.bound
  have hsucc : (nextFence + 1).toNat = nextFence.toNat + 1 := by
    rw [UInt64.toNat_add]
    have hone : (1 : UInt64).toNat = 1 := by decide
    omega
  have hearlier : ∀ issue ∈ issued, key = issue.token.key → issue.token.fence.val < nextFence :=
    fun issue hissue hkey => hdisciplined.lt_nextFence hissue (hkey ▸ hopen)
  refine ⟨?_, ?_, ?_, ?_, ?_⟩
  · intro issue hissue
    simp only [StoreCall.effect]
    split
    next => simp
    next hkey =>
      rcases List.mem_append.mp hissue with hold | hnew
      · exact hdisciplined.known issue hold
      · obtain rfl := List.mem_singleton.mp hnew
        exact absurd rfl hkey
  · intro ticket issue fence otherFingerprint otherLease hticket hstate
    by_cases hold : ticket < issued.length
    · rw [List.getElem?_append_left hold] at hticket
      rw [Session.latest_append hticket]
      rcases StoreCall.effect_put_eq_some hstate with ⟨hkey, hfresh⟩ | ⟨hkey, hkept⟩
      -- the record now carries the new fence, which no earlier token has
      · cases hfresh
        refine iff_of_false ?_ fun hlatest => hlatest.2 hkey
        intro hfence
        have hlt := hearlier issue (List.mem_of_getElem? hticket) hkey
        rw [hfence] at hlt
        exact UInt64.lt_irrefl _ hlt
      · rw [hdisciplined.current ticket issue fence _ _ hticket hkept]
        exact (and_iff_left hkey).symm
    · obtain rfl : ticket = issued.length := by
        have hticketBound := (List.getElem?_eq_some_iff.mp hticket).1
        simp only [List.length_append, List.length_singleton] at hticketBound
        omega
      refine iff_of_true ?_ (Session.latest_last _ _)
      rw [List.getElem?_concat_length] at hticket
      obtain rfl := Option.some.inj hticket
      simp only [StoreCall.effect, if_true, Option.some.injEq, KeyState.inProgress.injEq] at hstate
      exact hstate.1
  · intro issue hissue fence otherFingerprint otherLease hstate
    rcases StoreCall.effect_put_eq_some hstate with ⟨hkey, hfresh⟩ | ⟨hkey, hkept⟩
    · cases hfresh
      rcases List.mem_append.mp hissue with hold | hnew
      · exact UInt64.le_of_lt (hearlier issue hold hkey)
      · obtain rfl := List.mem_singleton.mp hnew
        exact UInt64.le_refl _
    · rcases List.mem_append.mp hissue with hold | hnew
      · exact hdisciplined.atMost issue hold fence _ _ hkept
      · obtain rfl := List.mem_singleton.mp hnew
        exact absurd rfl hkey
  · intro other fence otherFingerprint otherLease hstate
    rw [UInt64.lt_iff_toNat_lt, hsucc]
    rcases StoreCall.effect_put_eq_some hstate with ⟨-, hfresh⟩ | ⟨-, hkept⟩
    · cases hfresh
      exact Nat.lt_succ_self _
    · have hlt := hdisciplined.below other fence _ _ hkept
      rw [UInt64.lt_iff_toNat_lt] at hlt
      omega
  · rw [hsucc, List.length_append, List.length_singleton]
    omega

end Disciplined

/-! ## Two engines with different fences -/

/-- The time at which an operation is made. -/
def Operation.time : Operation → Option UInt64
  | .begin _ _ nowMs => some nowMs
  | .complete _ _ nowMs => some nowMs
  | .flush => none
  | .pruneExpired _ nowMs => some nowMs

/-- What an engine has to go by: the tokens issued, the states stored and the counter. -/
structure View where
  issued : List Issue
  states : IdempotencyKey → Option KeyState
  nextFence : UInt64

namespace View

/-- The view after an operation was answered by the plan of its call. -/
def after (view : View) (operation : Operation) (plan : Plan) : View :=
  ⟨view.issued ++ (operation.issue (some plan.answer)).toList,
    fun key => plan.effect key (view.states key), plan.nextFence⟩

/-- The operation comes before any stored outcome expires. -/
def Timely (ttlMs : UInt64) (view : View) (operation : Operation) : Prop :=
  ∀ nowMs ∈ operation.time, ∀ key fingerprint outcome completedAtMs,
    view.states key = some (.completed fingerprint outcome completedAtMs) →
    nowMs < saturatingAdd completedAtMs ttlMs

/-- A begin that starts a run is not the one that exhausts the counter. -/
def Roomy (ttlMs : UInt64) (view : View) : Operation → Prop
  | .begin key fingerprint nowMs =>
      Engine.action ttlMs fingerprint nowMs (view.states key) = .start →
        view.issued.length + 1 < 2 ^ 64 - 1
  | _ => True

instance (ttlMs : UInt64) (view : View) : DecidablePred (Roomy ttlMs view)
  | .begin .. => inferInstanceAs (Decidable (_ = _ → _ < _))
  | .complete .. => inferInstanceAs (Decidable True)
  | .flush => inferInstanceAs (Decidable True)
  | .pruneExpired .. => inferInstanceAs (Decidable True)

end View

/-- What an engine in a session has to go by. -/
def Session.view {σ : Type} [Store σ] (session : Session (Engine σ)) : View :=
  ⟨session.issued, Store.get session.node.store, session.node.nextFence⟩

/-- Both views are disciplined and they are the same up to fences. -/
structure Twins (one other : View) : Prop where
  oneDisciplined : Disciplined one.issued one.states one.nextFence
  otherDisciplined : Disciplined other.issued other.states other.nextFence
  issued : one.issued.map Issue.unfenced = other.issued.map Issue.unfenced
  states : ∀ key, (one.states key).map KeyState.unfenced =
    (other.states key).map KeyState.unfenced

namespace Twins

variable {one other : View} {leaseMs ttlMs : UInt64}

theorem action (htwins : Twins one other) (ttlMs : UInt64) (key : IdempotencyKey)
    (fingerprint : RequestFingerprint) (nowMs : UInt64) :
    Engine.action ttlMs fingerprint nowMs (one.states key) =
      Engine.action ttlMs fingerprint nowMs (other.states key) := by
  rw [← Engine.action_unfenced, htwins.states, Engine.action_unfenced]

theorem length (htwins : Twins one other) : one.issued.length = other.issued.length := by
  have hlength := congrArg List.length htwins.issued
  simpa using hlength

theorem completed (htwins : Twins one other) {key : IdempotencyKey}
    {fingerprint : RequestFingerprint} {outcome : CachedOutcome} {completedAtMs : UInt64}
    (hstate : one.states key = some (.completed fingerprint outcome completedAtMs)) :
    other.states key = some (.completed fingerprint outcome completedAtMs) := by
  have hsame := htwins.states key
  rw [hstate] at hsame
  match hother : other.states key with
  | none => simp [hother] at hsame
  | some (.inProgress ..) => simp [hother, KeyState.unfenced] at hsame
  | some (.completed ..) =>
      rw [hother] at hsame
      exact hsame.symm

/-- A step that touches no store, with answers that issue nothing. -/
theorem reads (htwins : Twins one other) {operation : Operation} {answer : Answer}
    (hissue : operation.issue (some answer) = none) :
    Twins (one.after operation ⟨none, one.nextFence, answer⟩)
      (other.after operation ⟨none, other.nextFence, answer⟩) := by
  simp only [View.after, hissue, Option.toList_none, List.append_nil]
  exact htwins

/-- Timely starts are not starts over an expired outcome. -/
theorem open_of_start {key : IdempotencyKey} {fingerprint : RequestFingerprint} {nowMs : UInt64}
    {view : View} (htimely : view.Timely ttlMs (.begin key fingerprint nowMs))
    (haction : Engine.action ttlMs fingerprint nowMs (view.states key) = .start)
    (stored : RequestFingerprint) (outcome : CachedOutcome) (completedAtMs : UInt64) :
    view.states key ≠ some (.completed stored outcome completedAtMs) := by
  intro hstate
  have hnow := htimely nowMs rfl key stored outcome completedAtMs hstate
  have hexpired : ¬ nowMs ≥ saturatingAdd completedAtMs ttlMs := UInt64.not_le.mpr hnow
  simp only [hstate, Engine.action, hexpired, if_false] at haction
  split at haction <;> cases haction

theorem begins (htwins : Twins one other) {key : IdempotencyKey}
    {fingerprint : RequestFingerprint} {nowMs : UInt64}
    (htimely : other.Timely ttlMs (.begin key fingerprint nowMs))
    (hroomy : other.Roomy ttlMs (.begin key fingerprint nowMs)) :
    ((EngineCall.begin key fingerprint nowMs).plan leaseMs ttlMs one.nextFence
        one.states).answer.unfenced =
      ((EngineCall.begin key fingerprint nowMs).plan leaseMs ttlMs other.nextFence
        other.states).answer.unfenced ∧
    Twins
      (one.after (.begin key fingerprint nowMs)
        ((EngineCall.begin key fingerprint nowMs).plan leaseMs ttlMs one.nextFence one.states))
      (other.after (.begin key fingerprint nowMs)
        ((EngineCall.begin key fingerprint nowMs).plan leaseMs ttlMs other.nextFence
          other.states)) := by
  have haction := htwins.action ttlMs key fingerprint nowMs
  cases hother : Engine.action ttlMs fingerprint nowMs (other.states key) with
  | start =>
      rw [hother] at haction
      rw [EngineCall.plan_begin_start haction, EngineCall.plan_begin_start hother]
      have hopen := open_of_start htimely hother
      have hroom : other.issued.length + 1 < 2 ^ 64 - 1 := hroomy hother
      refine ⟨rfl, ?_, ?_, ?_, ?_⟩
      · refine htwins.oneDisciplined.start (fun stored outcome completedAtMs hstate => ?_)
          (htwins.length ▸ hroom) fingerprint _
        exact hopen stored outcome completedAtMs (htwins.completed hstate)
      · exact htwins.otherDisciplined.start hopen hroom fingerprint _
      · simp only [View.after, Operation.issue, Option.toList_some, List.map_append, htwins.issued]
        rfl
      · intro found
        simp only [View.after, Plan.effect, StoreCall.effect]
        split
        next => rfl
        next => exact htwins.states found
  | replay outcome =>
      rw [hother] at haction
      simp only [EngineCall.plan, haction, hother]
      exact ⟨trivial, htwins.reads rfl⟩
  | inProgress =>
      rw [hother] at haction
      simp only [EngineCall.plan, haction, hother]
      exact ⟨trivial, htwins.reads rfl⟩
  | mismatch =>
      rw [hother] at haction
      simp only [EngineCall.plan, haction, hother]
      exact ⟨trivial, htwins.reads rfl⟩

/-- The same place in both orders of issue holds tokens for the same key. -/
theorem issue (htwins : Twins one other) {ticket : Nat} {issued : Issue}
    (hissue : one.issued[ticket]? = some issued) :
    ∃ twin, other.issued[ticket]? = some twin ∧ twin.token.key = issued.token.key := by
  have hmapped : (other.issued.map Issue.unfenced)[ticket]? = some issued.unfenced := by
    rw [← htwins.issued, List.getElem?_map, hissue, Option.map_some]
  rw [List.getElem?_map] at hmapped
  obtain ⟨twin, htwin, hunfenced⟩ := Option.map_eq_some_iff.mp hmapped
  exact ⟨twin, htwin, congrArg Prod.fst hunfenced⟩

theorem completes (htwins : Twins one other) {ticket : Nat} {issued twin : Issue}
    (hissue : one.issued[ticket]? = some issued) (htwin : other.issued[ticket]? = some twin)
    (hkey : twin.token.key = issued.token.key) (outcome : CachedOutcome) (nowMs : UInt64) :
    ((EngineCall.complete issued.token outcome nowMs).plan leaseMs ttlMs one.nextFence
        one.states).answer.unfenced =
      ((EngineCall.complete twin.token outcome nowMs).plan leaseMs ttlMs other.nextFence
        other.states).answer.unfenced ∧
    Twins
      (one.after (.complete ticket outcome nowMs)
        ((EngineCall.complete issued.token outcome nowMs).plan leaseMs ttlMs one.nextFence
          one.states))
      (other.after (.complete ticket outcome nowMs)
        ((EngineCall.complete twin.token outcome nowMs).plan leaseMs ttlMs other.nextFence
          other.states)) := by
  have hsame := htwins.states issued.token.key
  match hone : one.states issued.token.key, hother : other.states issued.token.key with
  | none, none =>
      simp only [EngineCall.plan, hkey, hone, hother]
      exact ⟨trivial, htwins.reads rfl⟩
  | some (.completed ..), some (.completed ..) =>
      simp only [EngineCall.plan, hkey, hone, hother]
      exact ⟨trivial, htwins.reads rfl⟩
  | some (.inProgress fence fingerprint lease), some (.inProgress otherFence otherFingerprint _) =>
      obtain ⟨rfl, -⟩ : fingerprint = otherFingerprint ∧ _ := by
        simpa [hone, hother, KeyState.unfenced] using hsame
      -- on either side the token is current exactly if it is the latest of its key
      have hcurrent := htwins.oneDisciplined.current ticket issued fence _ _ hissue hone
      have hcurrentTwin :=
        htwins.otherDisciplined.current ticket twin otherFence _ _ htwin (hkey ▸ hother)
      by_cases hlatest : Session.Latest one.issued ticket
      · have hholder := hcurrent.mpr hlatest
        have hholderTwin := hcurrentTwin.mpr (Session.latest_congr htwins.issued hlatest)
        subst hholder hholderTwin
        rw [EngineCall.plan_complete_holder hone, EngineCall.plan_complete_holder (hkey ▸ hother)]
        have honeAfter :=
          htwins.oneDisciplined.complete issued.token.key fingerprint outcome nowMs
        have hotherAfter :=
          htwins.otherDisciplined.complete twin.token.key fingerprint outcome nowMs
        refine ⟨rfl, ?_, ?_, ?_, fun found => ?_⟩
        · simpa [View.after, Operation.issue] using honeAfter
        · simpa [View.after, Operation.issue] using hotherAfter
        · simpa [View.after, Operation.issue] using htwins.issued
        · simp only [View.after, Plan.effect, StoreCall.effect, hkey]
          split
          next => rfl
          next => exact htwins.states found
      · have hstale : fence ≠ issued.token.fence := fun heq => hlatest (hcurrent.mp heq.symm)
        have hstaleTwin : otherFence ≠ twin.token.fence := fun heq =>
          hlatest (Session.latest_congr htwins.issued.symm (hcurrentTwin.mp heq.symm))
        simp only [EngineCall.plan, hkey, hone, hother, hstale, hstaleTwin, if_false]
        exact ⟨trivial, htwins.reads rfl⟩
  | none, some _ => simp [hone, hother] at hsame
  | some _, none => simp [hone, hother] at hsame
  | some (.inProgress ..), some (.completed ..) =>
      simp [hone, hother, KeyState.unfenced] at hsame
  | some (.completed ..), some (.inProgress ..) =>
      simp [hone, hother, KeyState.unfenced] at hsame

/-- A timely prune drops nothing. -/
theorem prune_keeps {view : View} {iteration : Iteration} {nowMs : UInt64}
    (htimely : view.Timely ttlMs (.pruneExpired iteration nowMs)) (key : IdempotencyKey) :
    (view.states key).filter (Engine.keeps ttlMs nowMs key) = view.states key := by
  match hstate : view.states key with
  | none => rfl
  | some (.inProgress ..) => rfl
  | some (.completed fingerprint outcome completedAtMs) =>
      have hnow := htimely nowMs rfl key fingerprint outcome completedAtMs hstate
      simp [Engine.keeps, hnow]

/-- Twins answer every timely operation alike, and stay twins. -/
theorem operation (htwins : Twins one other) (leaseMs : UInt64) {operation : Operation}
    (htimely : other.Timely ttlMs operation) (hroomy : other.Roomy ttlMs operation) :
    (operation.call one.issued = none ∧ operation.call other.issued = none) ∨
    ∃ call twin, operation.call one.issued = some call ∧ operation.call other.issued = some twin ∧
      (call.plan leaseMs ttlMs one.nextFence one.states).answer.unfenced =
        (twin.plan leaseMs ttlMs other.nextFence other.states).answer.unfenced ∧
      Twins (one.after operation (call.plan leaseMs ttlMs one.nextFence one.states))
        (other.after operation (twin.plan leaseMs ttlMs other.nextFence other.states)) := by
  cases operation with
  | begin key fingerprint nowMs =>
      exact Or.inr ⟨_, _, rfl, rfl, htwins.begins htimely hroomy⟩
  | complete ticket outcome nowMs =>
      cases hissue : one.issued[ticket]? with
      | none =>
          have hnone : other.issued[ticket]? = none := by
            rw [List.getElem?_eq_none_iff] at hissue ⊢
            rw [← htwins.length]
            exact hissue
          exact Or.inl ⟨by simp [Operation.call, hissue], by simp [Operation.call, hnone]⟩
      | some issued =>
          obtain ⟨twin, htwin, hkey⟩ := htwins.issue hissue
          exact Or.inr ⟨_, _, by simp [Operation.call, hissue], by simp [Operation.call, htwin],
            htwins.completes hissue htwin hkey outcome nowMs⟩
  | flush =>
      refine Or.inr ⟨_, _, rfl, rfl, rfl, ?_⟩
      simpa [View.after, Operation.issue, EngineCall.plan, Plan.effect,
        StoreCall.effect] using htwins
  | pruneExpired iteration nowMs =>
      have honeTimely : one.Timely ttlMs (.pruneExpired iteration nowMs) :=
        fun now hnow key fingerprint outcome completedAtMs hstate =>
          htimely now hnow key fingerprint outcome completedAtMs (htwins.completed hstate)
      refine Or.inr ⟨_, _, rfl, rfl, rfl, ?_⟩
      simpa [View.after, Operation.issue, EngineCall.plan, Plan.effect, StoreCall.effect,
        prune_keeps htimely, prune_keeps honeTimely] using htwins

end Twins

end Onced
