import Onced.Wal.Strict

/-! # Keys whose worker is gone

A worker that neither completes nor retries leaves its key locked. The lock does not
stop the worker's own request, which waits for the lease to run out and then takes the
key over. It stops every other one: neither the time to live nor pruning nor a crash
removes it, and a request with another fingerprint is refused for as long as the first
one does not come back.
-/

namespace Onced

def Event.Spares (key : IdempotencyKey) (holder : RequestFingerprint) (fence : Fence)
    (leaseExpiresAtMs : UInt64) : Event → Prop
  | .call _ engineCall => engineCall.Spares key holder fence leaseExpiresAtMs
  | .crash => True

/-- The event asks for the key, and is refused. -/
def Event.Refused (key : IdempotencyKey) (holder : RequestFingerprint) (event : Event)
    (answer : Option Answer) : Prop :=
  ∀ io fingerprint nowMs, event = .call io (.begin key fingerprint nowMs) →
    answer = some (.begun (EngineCall.refusal holder fingerprint))

namespace Wal

open Foundation

section Locked

variable {setup : Setup} {point next : Point} {key : IdempotencyKey}
  {holder : RequestFingerprint} {fence : Fence} {leaseExpiresAtMs : UInt64}

/-- A step that spares a locked key leaves it locked, and a request for the key is refused. -/
theorem Point.Moves.locked (hstrict : setup.syncEach = true)
    (hbuffered : point.ledger.buffered = [])
    (hlocked : point.states key = some (.inProgress fence holder leaseExpiresAtMs))
    {event : Event} (hspares : event.Spares key holder fence leaseExpiresAtMs)
    {answer : Option Answer}
    (hmove : point.Moves setup event answer next) :
    next.ledger.buffered = [] ∧
      next.states key = some (.inProgress fence holder leaseExpiresAtMs) ∧
      event.Refused key holder answer := by
  obtain ⟨hsettled, hstates⟩ := hmove.strict hstrict hbuffered
  refine ⟨hsettled, ?_, ?_⟩
  · rcases hstates with hsame | ⟨io, call, storeCall, rfl, hplan, heffect⟩
    · rw [hsame, hlocked]
    · rw [heffect, ← hlocked]
      exact EngineCall.effect_of_spares hlocked hspares hplan
  · rintro io fingerprint nowMs rfl
    have hplan : point.plan setup (.begin key fingerprint nowMs) =
        ⟨none, point.nextFence, .begun (EngineCall.refusal holder fingerprint)⟩ :=
      EngineCall.plan_begin_locked hlocked hspares
    cases hmove with
    | returns => rw [hplan]
    | dies hcall =>
        rw [hplan] at hcall
        cases hcall

/-- A strict node on which a key is locked, whatever else it is asked and however often it
crashes, stays locked and refuses other requests. -/
theorem Node.run_locked (hstrict : setup.syncEach = true) {engine : Engine WalStore}
    (hrep : Node.Represents setup engine point) (hbuffered : point.ledger.buffered = [])
    (hlocked : point.states key = some (.inProgress fence holder leaseExpiresAtMs))
    {events : List Event} (hfits : ∀ event ∈ events, event.Fits)
    (hspares : ∀ event ∈ events, event.Spares key holder fence leaseExpiresAtMs) :
    ∃ answers last pointLast, run engine events = .ok (answers, last) ∧
      List.Forall₂ (Event.Refused key holder) events answers ∧
      Node.Represents setup last pointLast ∧
      pointLast.states key = some (.inProgress fence holder leaseExpiresAtMs) := by
  have hrelated : Node.Represents setup engine point ∧ point.ledger.buffered = [] ∧
      point.states key = some (.inProgress fence holder leaseExpiresAtMs) :=
    ⟨hrep, hbuffered, hlocked⟩
  obtain ⟨answers, last, pointLast, hrun, hpath, hlast, -, hstill⟩ :=
    @exists_path_of_simulation _ _ _ _ _
      (fun _ event answer _ => event.Refused key holder answer) step
      (fun engine point => Node.Represents setup engine point ∧ point.ledger.buffered = [] ∧
        point.states key = some (.inProgress fence holder leaseExpiresAtMs))
      (fun _ event => event.Fits ∧ event.Spares key holder fence leaseExpiresAtMs) (by
        rintro engine point event ⟨hrep, hbuffered, hlocked⟩ ⟨hfits, hspares⟩
        obtain ⟨answer, next, pointNext, hstep, hmove, hnext⟩ := step_refines hrep hfits
        obtain ⟨hsettled, hstill, hrefused⟩ := hmove.locked hstrict hbuffered hlocked hspares
        exact ⟨answer, next, pointNext, hstep, hrefused, hnext, hsettled, hstill⟩)
      events engine point hrelated
      (along_of_forall (fun event hevent _ => ⟨hfits event hevent, hspares event hevent⟩) _)
  refine ⟨answers, last, pointLast, hrun, Path.forall₂ ?_ hpath, hlast, hstill⟩
  intro _ _ _ _ hrefused
  exact hrefused

end Locked

/-- A key that a strict node has locked and whose worker is gone: whatever is asked of the node
while the holder has not come back after its lease, and however often it is pruned or crashes,
the holder's request for the key is told to wait and every other one is refused. The holder's
own request, at or after the end of its lease, is run. -/
theorem abandoned_key_waits_for_holder (leaseMs ttlMs : UInt64) {before events : List Event}
    (hbefore : ∀ event ∈ before, event.Fits) {earlier : List (Option Answer)}
    {engine : Engine WalStore}
    (hrun : Node.run (Node.fresh true leaseMs ttlMs) before = .ok (earlier, engine))
    {key : IdempotencyKey} {holder : RequestFingerprint} {fence : Fence}
    {leaseExpiresAtMs : UInt64}
    (hlocked : Store.get engine.store key = some (.inProgress fence holder leaseExpiresAtMs))
    (hfits : ∀ event ∈ events, event.Fits)
    (hspares : ∀ event ∈ events, event.Spares key holder fence leaseExpiresAtMs) :
    ∃ answers last, Node.run engine events = .ok (answers, last) ∧
      List.Forall₂ (Event.Refused key holder) events answers ∧
      ∀ nowMs, leaseExpiresAtMs ≤ nowMs → ∃ token next,
        Engine.begin .done key holder nowMs last = .ok (.run token) next := by
  obtain ⟨_, _, point, hreached, hrep, hbuffered⟩ :=
    Node.run_strict rfl (Node.fresh_represents ⟨true, leaseMs, ttlMs⟩) rfl hbefore
  cases hrun.symm.trans hreached
  rw [hrep.states] at hlocked
  obtain ⟨answers, last, pointLast, hlast, hrefused, hlastRep, hstill⟩ :=
    Node.run_locked rfl hrep hbuffered hlocked hfits hspares
  refine ⟨answers, last, hlast, hrefused, fun nowMs hexpired => ?_⟩
  have hplan : last.plan (.begin key holder nowMs) = _ :=
    EngineCall.plan_begin_start (by
      rw [hlastRep.states, hstill]
      exact Engine.action_takeover hexpired _ _ _)
  obtain ⟨next, hbegin, -⟩ := Engine.run_lawful (.begin key holder nowMs) last
  rw [hplan] at hbegin
  obtain ⟨decision, hdecision, hrun⟩ := Engine.map_eq_ok hbegin
  cases hrun
  exact ⟨_, next, hdecision⟩

/-- The holder is back too early; then another request for the key, long after the lease and the
time to live, and again after a crash and a prune. -/
def intruders : List Event :=
  [.call .done (.begin ⟨"k"⟩ ⟨genesis⟩ 9),
    .call .done (.begin ⟨"k"⟩ ⟨List.Vector.replicate 32 1⟩ 1000), .crash,
    .call .done (.pruneExpired .listed 2000),
    .call .done (.begin ⟨"k"⟩ ⟨List.Vector.replicate 32 1⟩ 3000)]

theorem spares_of_mem_intruders {event : Event} (hevent : event ∈ intruders) :
    event.Spares ⟨"k"⟩ ⟨genesis⟩ ⟨1⟩ 10 := by
  have hother : (⟨List.Vector.replicate 32 1⟩ : RequestFingerprint) ≠ ⟨genesis⟩ := by decide
  simp only [intruders, List.mem_cons, List.not_mem_nil, or_false] at hevent
  rcases hevent with rfl | rfl | rfl | rfl | rfl
  · exact fun _ _ => by decide
  · exact fun _ hholder => absurd hholder hother
  · trivial
  · trivial
  · exact fun _ hholder => absurd hholder hother

/-- A key is locked and its worker is gone. -/
theorem abandoned_key_waits_for_holder_lost :
    ∃ earlier engine answers last,
      Node.run (Node.fresh true 10 100) [.call .done (.begin ⟨"k"⟩ ⟨genesis⟩ 0)] =
        .ok (earlier, engine) ∧
      Node.run engine intruders = .ok (answers, last) ∧
      answers.head? = some (some (.begun .inProgress)) ∧
      answers.getLast? = some (some (.begun .mismatch)) ∧
      ∃ token next, Engine.begin .done ⟨"k"⟩ ⟨genesis⟩ 10 last = .ok (.run token) next := by
  obtain ⟨engine, hbegin, -, -, -, hstates⟩ :=
    Engine.run_lawful (.begin ⟨"k"⟩ ⟨genesis⟩ 0) (Node.fresh true 10 100)
  have hrun : ∃ earlier, Node.run (Node.fresh true 10 100)
      [.call .done (.begin ⟨"k"⟩ ⟨genesis⟩ 0)] = .ok (earlier, engine) := by
    simp only [Node.run, runSteps, Node.step, hbegin]
    exact ⟨_, rfl⟩
  have hlocked : Store.get engine.store ⟨"k"⟩ = some (.inProgress ⟨1⟩ ⟨genesis⟩ 10) := by
    rw [hstates]
    rfl
  obtain ⟨earlier, hrun⟩ := hrun
  obtain ⟨answers, last, hlast, hrefused, hholder⟩ := abandoned_key_waits_for_holder 10 100
    (by decide) hrun hlocked (by decide) fun _ hevent => spares_of_mem_intruders hevent
  refine ⟨earlier, engine, answers, last, hrun, hlast, ?_, ?_, hholder 10 (by decide)⟩
  · cases hrefused with
    | cons hfirst _ =>
        rw [List.head?_cons, hfirst _ _ _ rfl]
        decide
  · rcases hrefused with _ | ⟨_, _ | ⟨_, _ | ⟨_, _ | ⟨_, _ | ⟨hfifth, _ | _⟩⟩⟩⟩⟩
    have htold : EngineCall.refusal ⟨genesis⟩ ⟨List.Vector.replicate 32 1⟩ = .mismatch := by decide
    rw [hfifth _ _ _ rfl, htold]
    rfl

end Wal

end Onced
