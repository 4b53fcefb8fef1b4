import Onced.Gateway.Shard

/-! # One answer per key

A response tagged as created or replayed shows an outcome for a key. Such a
response is handed out without looking at whether the completion was accepted.
As long as no completion is refused and nothing expires, every outcome shown for
a key is the one stored for it.
-/

namespace Onced

open Foundation

namespace Handled

/-- The outcome that a response tagged created or replayed shows for a key. -/
def shown (handled : Handled) : Option (IdempotencyKey × CachedOutcome) :=
  match handled.entry with
  | some (.begin key _ _, .begun (.replay outcome)) => some (key, outcome)
  | some (.complete token outcome _, .completed _) => some (token.key, outcome)
  | _ => none

/-- The engine refused the completion. -/
def Refused (handled : Handled) : Prop :=
  ∃ token outcome nowMs refusal,
    handled.entry = some (.complete token outcome nowMs, .completed (.error refusal))

/-- The client is handed a response tagged created or replayed with this outcome. -/
def Shows (handled : Handled) (outcome : CachedOutcome) : Prop :=
  ∃ response status, handled.reply = .answered response ∧ response.status = outcome.status ∧
    response.body = outcome.body ∧ response.headers.getLast? = some ("Onced-Status", status) ∧
    (status = "created" ∨ status = "replayed")

end Handled

namespace Shard

variable {σ : Type} [Store σ]

/-- A completion is presented by the holder of the current fence. -/
def Held (shard : Shard σ) (event : ShardEvent) : Prop :=
  ∀ token outcome nowMs, shard.call event = some (.complete token outcome nowMs) →
    ∃ fingerprint leaseExpiresAtMs,
      shard.states token.key = some (.inProgress token.fence fingerprint leaseExpiresAtMs)

/-- Nothing fails, no stored outcome has expired, and no completion is refused. -/
structure Orderly (shard : Shard σ) (event : ShardEvent) : Prop where
  done : event.io = .done
  live : ∀ call, shard.call event = some call → ∀ key fingerprint outcome completedAtMs,
    shard.states key = some (.completed fingerprint outcome completedAtMs) →
    ¬ call.Expires key (saturatingAdd completedAtMs shard.gateway.engine.ttlMs)
  held : shard.Held event

/-- The key is completed with this outcome. -/
def Stored (shard : Shard σ) (key : IdempotencyKey) (outcome : CachedOutcome) : Prop :=
  ∃ fingerprint completedAtMs, shard.states key =
    some (.completed fingerprint outcome completedAtMs)

variable {shard next : Shard σ} {event : ShardEvent} {handled : Handled}

theorem Orderly.keeps_stored (horderly : shard.Orderly event)
    (hplans : shard.Plans event handled next) {key : IdempotencyKey} {outcome : CachedOutcome}
    (hstored : shard.Stored key outcome) : next.Stored key outcome := by
  obtain ⟨fingerprint, completedAtMs, hstate⟩ := hstored
  refine ⟨fingerprint, completedAtMs, ?_⟩
  cases hplans with
  | passes _ hengine =>
      rw [states, hengine]
      exact hstate
  | returns hcall _ _ _ _ hstates =>
      have hlive := horderly.live _ hcall key fingerprint outcome completedAtMs hstate
      rw [hstates]
      exact (EngineCall.plan_effect_completed hstate hlive).trans hstate

theorem Orderly.not_refused (horderly : shard.Orderly event)
    (hplans : shard.Plans event handled next) : ¬ handled.Refused := by
  rintro ⟨token, outcome, nowMs, refusal, hentry⟩
  cases hplans with
  | passes => contradiction
  | returns hcall =>
      obtain ⟨rfl, hanswer⟩ := Prod.mk.inj (Option.some.inj hentry)
      obtain ⟨fingerprint, leaseExpiresAtMs, hstate⟩ := horderly.held token outcome nowMs hcall
      rw [Engine.plan, EngineCall.plan_complete_holder hstate] at hanswer
      cases hanswer

/-- What a section shows, its engine call stores or finds stored. -/
theorem Held.shows (hheld : shard.Held event) {call : EngineCall} {reply : Reply}
    (hcall : shard.call event = some call)
    (htells : Tells event call (shard.gateway.engine.plan call).answer reply)
    {key : IdempotencyKey} {outcome : CachedOutcome}
    (hshown : Handled.shown ⟨reply, some (call, (shard.gateway.engine.plan call).answer)⟩ =
      some (key, outcome)) :
    Handled.Shows ⟨reply, some (call, (shard.gateway.engine.plan call).answer)⟩ outcome ∧
      ∃ fingerprint completedAtMs,
        (shard.gateway.engine.plan call).effect key (shard.states key) =
          some (.completed fingerprint outcome completedAtMs) := by
  generalize hanswer : (shard.gateway.engine.plan call).answer = answer at htells hshown ⊢
  cases htells with
  | @replays _ _ _ fingerprint =>
      cases hshown
      obtain ⟨completedAtMs, hstate⟩ := EngineCall.plan_begin_replay hanswer
      refine ⟨⟨_, _, rfl, rfl, rfl, List.getLast?_concat, Or.inr rfl⟩, fingerprint, completedAtMs,
        ?_⟩
      rw [Plan.effect, Engine.plan, EngineCall.plan_reads_of_replay hanswer]
      exact hstate
  | @creates _ _ response token nowMs =>
      cases hshown
      obtain ⟨fingerprint, _, hstate⟩ := hheld token _ nowMs hcall
      refine ⟨⟨_, _, rfl, rfl, rfl, List.getLast?_concat, Or.inl rfl⟩, fingerprint, nowMs, ?_⟩
      rw [Engine.plan, EngineCall.plan_complete_holder hstate]
      exact if_pos rfl
  | runs => contradiction
  | waits => contradiction
  | mismatches => contradiction
  | prunes => contradiction

/-- What is shown is what is stored. -/
theorem Orderly.shows_stored (horderly : shard.Orderly event)
    (hplans : shard.Plans event handled next) {key : IdempotencyKey} {outcome : CachedOutcome}
    (hshown : handled.shown = some (key, outcome)) :
    handled.Shows outcome ∧ next.Stored key outcome := by
  cases hplans with
  | passes => contradiction
  | returns hcall htells _ _ _ hstates =>
      obtain ⟨hshows, fingerprint, completedAtMs, hstate⟩ :=
        horderly.held.shows hcall htells hshown
      exact ⟨hshows, fingerprint, completedAtMs, (hstates key).trans hstate⟩

/-- Orderly sections, one after the other. -/
def OrderlyMoves (shard : Shard σ) (event : ShardEvent) (handled : Handled) (next : Shard σ) :
    Prop := shard.Orderly event ∧ shard.Plans event handled next

theorem shown_of_path {last : Shard σ} {events : List ShardEvent} {handled : List Handled}
    (hpath : Path OrderlyMoves shard events handled last) :
    (∀ one ∈ handled, ¬ one.Refused) ∧ ∀ one ∈ handled, ∀ key outcome,
      one.shown = some (key, outcome) → one.Shows outcome ∧ last.Stored key outcome := by
  induction hpath with
  | nil shard =>
      constructor
      · intro one hone
        exact absurd hone List.not_mem_nil
      · intro one hone
        exact absurd hone List.not_mem_nil
  | @cons shard next last event events one rest first hrest ih =>
      obtain ⟨horderly, hplans⟩ := first
      refine ⟨List.forall_mem_cons.mpr ⟨horderly.not_refused hplans, ih.1⟩,
        List.forall_mem_cons.mpr ⟨?_, ih.2⟩⟩
      intro key outcome hshown
      obtain ⟨hshows, hstored⟩ := horderly.shows_stored hplans hshown
      refine ⟨hshows, hrest.invariant (fun shard => shard.Stored key outcome) ?_ hstored⟩
      intro _ _ _ _ shard next hstored hmove
      exact hmove.1.keeps_stored hmove.2 hstored

/-- In an orderly run no completion is refused, and every response tagged created
or replayed for a key carries the status and the body of the outcome stored for it. -/
theorem shown_outcomes_stored [LawfulStore σ] (shard : Shard σ) (events : List ShardEvent)
    (horderly : Along step Orderly shard events) :
    ∃ handled last, runSteps step shard events = .ok (handled, last) ∧
      (∀ one ∈ handled, ¬ one.Refused) ∧ ∀ one ∈ handled, ∀ key outcome,
        one.shown = some (key, outcome) → one.Shows outcome ∧ last.Stored key outcome := by
  have hstep : ∀ (shard : Shard σ) event, True → shard.Orderly event →
      ∃ handled next, shard.step event = .ok (handled, next) ∧
        shard.OrderlyMoves event handled next ∧ True := by
    intro shard event _ horderly
    obtain ⟨handled, next, hstep, hplans⟩ := shard.step_plans horderly.done
    exact ⟨handled, next, hstep, ⟨horderly, hplans⟩, trivial⟩
  obtain ⟨handled, last, hrun, hpath, -⟩ :=
    exists_path_of_invariant (fun _ => True) hstep trivial horderly
  exact ⟨handled, last, hrun, shown_of_path hpath⟩

end Shard

/-! ## A lease that is overrun -/

def charge : Request := ⟨"POST", "/charge", [("Idempotency-Key", "k")], []⟩

theorem charge_key : charge.header "idempotency-key" = some "k" := by decide

/-- A shard in memory with a lease of 10 and a time to live of 100. -/
def desk : Shard MemoryStore := .fresh (.new (.withTtl .new 10 100))

/-- The backend has answered the charge, and the answer is to be committed. -/
theorem call_complete_charge {σ : Type} [Store σ] {one : Shard σ}
    (hslot : one.forwards[0]? = some (some ⟨⟨some ⟨⟨"k"⟩, ⟨1⟩⟩⟩, 0⟩)) :
    one.call (.complete .done 0 (.ok ⟨200, [], [2]⟩)) =
      some (.complete ⟨⟨"k"⟩, ⟨1⟩⟩ ⟨200, ∅, [2]⟩ 0) := by
  simp only [Shard.call, hslot]
  rfl

/-- The charge is answered as created, and its retry as replayed. -/
theorem shown_outcomes_stored_charge :
    ∃ begun created replayed last, runSteps Shard.step desk
        [.begin .done charge 0, .complete .done 0 (.ok ⟨200, [], [2]⟩), .begin .done charge 7] =
          .ok ([begun, created, replayed], last) ∧
      created.shown = some (⟨"k"⟩, ⟨200, ∅, [2]⟩) ∧ replayed.shown = some (⟨"k"⟩, ⟨200, ∅, [2]⟩) ∧
      replayed.Shows ⟨200, ∅, [2]⟩ ∧ last.Stored ⟨"k"⟩ ⟨200, ∅, [2]⟩ := by
  obtain ⟨one, hbegin, hone, hstate, _, hforwards⟩ := desk.step_starts 0 charge_key rfl
  have hslot : one.forwards[0]? = some (some ⟨⟨some ⟨⟨"k"⟩, ⟨1⟩⟩⟩, 0⟩) := by
    rw [hforwards]
    rfl
  obtain ⟨two, hcommit, htwo, hstored, -⟩ := one.step_commits hslot
    (show ¬ (Response.mk 200 [] [2]).status ≥ 500 by decide) hstate
  rw [← hone.fingerprintKey, ← htwo.fingerprintKey] at hstored
  have httl : two.gateway.engine.ttlMs = 100 := htwo.ttlMs.trans hone.ttlMs
  obtain ⟨three, hreplay, -⟩ := two.step_replays .done charge_key hstored
    (show 7 < saturatingAdd 0 two.gateway.engine.ttlMs by rw [httl]; decide)
  have hcall := call_complete_charge hslot
  have hpath : Path (fun shard event handled next => Shard.step shard event = .ok (handled, next))
      desk _ _ three := .cons hbegin (.cons hcommit (.cons hreplay (.nil three)))
  have hruns := runSteps_of_path hpath
  have hretry : ∀ {call}, two.call (.begin .done charge 7) = some call →
      call = .begin ⟨"k"⟩ (fingerprintOf charge two.gateway.fingerprintKey) 7 := by
    intro call hcall
    simpa [Shard.call, charge_key] using hcall.symm
  obtain ⟨handled, last, hrun, -, hshown⟩ := Shard.shown_outcomes_stored desk
    [.begin .done charge 0, .complete .done 0 (.ok ⟨200, [], [2]⟩), .begin .done charge 7] (by
      refine ⟨⟨rfl, fun _ _ _ _ _ _ hcompleted => ?_, fun _ _ _ hcompletes => ?_⟩, ?_⟩
      · cases hcompleted
      · simp [Shard.call, charge_key] at hcompletes
      rw [hbegin]
      refine ⟨⟨rfl, fun call hsome _ _ _ _ _ => ?_, fun token _ _ hsome => ?_⟩, ?_⟩
      · cases hcall.symm.trans hsome
        exact id
      · cases hcall.symm.trans hsome
        exact ⟨_, _, hstate⟩
      rw [hcommit]
      refine ⟨⟨rfl, fun call hsome key fingerprint outcome completedAtMs hkept => ?_,
        fun token _ _ hsome => ?_⟩, by trivial⟩
      · obtain rfl := hretry hsome
        rintro ⟨rfl, hexpired⟩
        cases hstored.symm.trans hkept
        rw [httl] at hexpired
        exact absurd hexpired (by decide)
      · cases hretry hsome)
  cases hruns.symm.trans hrun
  obtain ⟨hshows, hlast⟩ := hshown _
    (List.mem_cons_of_mem _ (List.mem_cons_of_mem _ List.mem_cons_self)) _ _ rfl
  exact ⟨_, _, _, three, hruns, rfl, rfl, hshows, hlast⟩

/-- The charge is begun twice, the second time when the first lease has run out. -/
theorem desk_takeover :
    ∃ begun taken one two, desk.step (.begin .done charge 0) = .ok (begun, one) ∧
      one.step (.begin .done charge 10) = .ok (taken, two) ∧
      two.states ⟨"k"⟩ = some (.inProgress ⟨2⟩ (fingerprintOf charge desk.gateway.fingerprintKey)
        20) ∧
      two.forwards = [some ⟨⟨some ⟨⟨"k"⟩, ⟨1⟩⟩⟩, 0⟩, some ⟨⟨some ⟨⟨"k"⟩, ⟨2⟩⟩⟩, 10⟩] := by
  obtain ⟨one, hbegin, hsetup, hstate, hfence, hforwards⟩ := desk.step_starts 0 charge_key rfl
  have haction : Engine.action one.gateway.engine.ttlMs
      (fingerprintOf charge one.gateway.fingerprintKey) 10 (one.states ⟨"k"⟩) = .start := by
    rw [hstate, hsetup.fingerprintKey]
    exact Engine.action_takeover (by decide) _ _ _
  obtain ⟨two, htakeover, _, htwo, _, htwoForwards⟩ := one.step_starts 10 charge_key haction
  rw [hfence, hsetup.fingerprintKey, hsetup.leaseMs] at htwo
  rw [hfence, hforwards] at htwoForwards
  exact ⟨_, _, one, two, hbegin, htakeover, htwo, htwoForwards⟩

/-- The worker that took over completes the charge; the overrun worker is refused
and still hands its own answer to its client as created. -/
theorem refused_answer_tagged_created :
    ∃ begun taken winner loser last, runSteps Shard.step desk
        [.begin .done charge 0, .begin .done charge 10, .complete .done 1 (.ok ⟨200, [], [2]⟩),
          .complete .done 0 (.ok ⟨200, [], [1]⟩)] = .ok ([begun, taken, winner, loser], last) ∧
      winner.reply = .answered ⟨200, [("Onced-Status", "created")], [2]⟩ ∧
      loser.Refused ∧ loser.reply = .answered ⟨200, [("Onced-Status", "created")], [1]⟩ ∧
      last.Stored ⟨"k"⟩ ⟨200, ∅, [2]⟩ := by
  obtain ⟨begun, taken, one, two, hbegin, htakeover, hstate, hforwards⟩ := desk_takeover
  have hwinner : two.forwards[1]? = some (some ⟨⟨some ⟨⟨"k"⟩, ⟨2⟩⟩⟩, 10⟩) := by
    rw [hforwards]
    rfl
  obtain ⟨three, hcommit, _, hstored, hthree⟩ := two.step_commits hwinner
    (show ¬ (Response.mk 200 [] [2]).status ≥ 500 by decide) hstate
  have hloser : three.forwards[0]? = some (some ⟨⟨some ⟨⟨"k"⟩, ⟨1⟩⟩⟩, 0⟩) := by
    rw [hthree, hforwards]
    rfl
  obtain ⟨refusal, last, hrefused, hlast⟩ := three.step_refused hloser
    (show ¬ (Response.mk 200 [] [1]).status ≥ 500 by decide)
    (fun _ _ hholder => by rw [hstored] at hholder; cases hholder)
  have hpath : Path (fun shard event handled next => Shard.step shard event = .ok (handled, next))
      desk _ _ last :=
    .cons hbegin (.cons htakeover (.cons hcommit (.cons hrefused (.nil last))))
  exact ⟨begun, taken, _, _, last, runSteps_of_path hpath, rfl, ⟨_, _, _, refusal, rfl⟩, rfl, _, 10,
    (hlast _).trans hstored⟩

end Onced
