import Onced.Gateway.Process

/-! # Outcomes across restarts

A request that was answered as created has its outcome on file. As long as every
restart leaves its key with the shard that owns the file, and nothing comes along
after the outcome has expired, a retry is answered from the file. The outcome keeps
the headers in a map, so what is replayed is what was created only if no header name
occurs twice.
-/

namespace Onced

open Foundation Wal

namespace Process

section Outcomes

variable (hash : String → UInt64) (fingerprintKey : Bytes32)

/-- The process has been started on empty files, and has run since. -/
def Reached (process : Process) : Prop :=
  ∃ count events log first, start fingerprintKey count (fun _ => []) = .ok first ∧
    Along (step hash fingerprintKey) (Fits hash) first events ∧
    runSteps (step hash fingerprintKey) first events = .ok (log, process)

/-- A keyed request is begun, and completed with the backend's response by a section
that is answered in time: no one else has been given a ticket for the key since, and
the engine accepts the outcome. Other sections come in between. -/
inductive Creates (process : Process) (request : Request) (key : IdempotencyKey)
    (response : Response) (completedAtMs : UInt64) : Router.Entered → Process → Prop where
  | intro {beginIo completeIo : Io} {startedMs : UInt64} {begun created : Router.Entered}
      {between : List Router.Event} {log : List (Option Router.Entered)} {one two next : Process}
      {index slot : Nat}
      (hbegin : process.step hash fingerprintKey (.enter (.begin beginIo request startedMs)) =
        .ok (some begun, one))
      (hbeginFits : process.Fits hash (.enter (.begin beginIo request startedMs)))
      (hticketed : begun.runs key = true)
      (hbetween : runSteps (step hash fingerprintKey) one (between.map .enter) = .ok (log, two))
      (hbetweenFits : Along (step hash fingerprintKey) (Fits hash) one (between.map .enter))
      (halone : ∀ entered, some entered ∈ log → entered.runs key = false)
      (hcomplete : two.step hash fingerprintKey
        (.enter (.complete completeIo index slot (.ok response))) = .ok (some created, next))
      (hcompleteFits : two.Fits hash (.enter (.complete completeIo index slot (.ok response))))
      (hcommitted : created.handled.committed = some (key, completedAtMs)) :
      Creates process request key response completedAtMs created next

variable {hash fingerprintKey} {process next : Process} {request : Request} {key : IdempotencyKey}
  {response : Response} {completedAtMs : UInt64} {created : Router.Entered}

theorem Reached.represents (hreached : Reached hash fingerprintKey process) :
    ∃ points, process.Represents hash fingerprintKey points := by
  obtain ⟨count, events, log, first, hstart, hfits, hrun⟩ := hreached
  obtain ⟨started, hstarted, -, -, -, -, hrep⟩ := @start_represents (fun _ => []) hash
    (fun _ => Point.restart []) count (fun _ => opensTo_empty) (fun _ => rfl) (fun _ _ => rfl)
    fingerprintKey
  cases hstart.symm.trans hstarted
  obtain ⟨_, last, points, hsame, -, hlast⟩ :=
    @exists_path_of_simulation _ _ _ _ _ (fun _ _ _ _ => True) (step hash fingerprintKey)
      (Represents hash fingerprintKey) (Fits hash) (by
        intro current points event hcurrent hfits
        obtain ⟨entered, next, nexts, hstep, -, hnext, -⟩ := step_refines hcurrent hfits
        exact ⟨entered, next, nexts, hstep, trivial, hnext⟩) events first _ hrep hfits
  cases hrun.symm.trans hsame
  exact ⟨points, hlast⟩

/-- What entering a section comes to. -/
theorem step_enter {event : Router.Event} {entered : Option Router.Entered}
    (hstep : process.step hash fingerprintKey (.enter event) = .ok (entered, next)) :
    (process.running = false ∧ entered = none ∧ next = process) ∨
      (process.running = true ∧ ∃ one router, process.router.step hash event = .ok (one, router) ∧
        entered = some one ∧
        next = { process with router := router, running := !one.panicked }) := by
  simp only [step] at hstep
  split at hstep
  next hrunning =>
    split at hstep
    next one router hrouter =>
      cases hstep
      exact Or.inr ⟨hrunning, one, router, hrouter, rfl, rfl⟩
    next impossible _ => cases impossible
  next hended =>
    cases hstep
    exact Or.inl ⟨by simpa using hended, rfl, rfl⟩

/-- A process that is running after a section was running before, and did not panic. -/
theorem running_before {event : Router.Event} {entered : Option Router.Entered}
    (hstep : process.step hash fingerprintKey (.enter event) = .ok (entered, next))
    (hrunning : next.running = true) :
    process.running = true ∧ ∀ one, entered = some one → one.panicked = false := by
  rcases step_enter hstep with ⟨hended, -, rfl⟩ | ⟨hbefore, one, router, -, rfl, rfl⟩
  · rw [hended] at hrunning
    contradiction
  · refine ⟨hbefore, fun other hother => ?_⟩
    obtain rfl := Option.some.inj hother
    simpa using hrunning

/-- The run of the key that is in progress, if one is, is for this fingerprint. -/
def RunsFor (points : Nat → Point) (owner : Nat) (key : IdempotencyKey)
    (fingerprint : RequestFingerprint) : Prop :=
  ∀ fence other leaseExpiresAtMs,
    (points owner).states key = some (.inProgress fence other leaseExpiresAtMs) →
      other = fingerprint

/-- As long as no ticket for the key is handed out, no other run of it begins. -/
theorem runsFor_of_run {points : Nat → Point} {owner : Nat} {fingerprint : RequestFingerprint}
    (hrep : process.Represents hash fingerprintKey points)
    (hruns : process.running = true → RunsFor points owner key fingerprint)
    {between : List Router.Event}
    (hfits : Along (step hash fingerprintKey) (Fits hash) process (between.map .enter))
    {log : List (Option Router.Entered)} {last : Process}
    (hrun : runSteps (step hash fingerprintKey) process (between.map .enter) = .ok (log, last))
    (halone : ∀ entered, some entered ∈ log → entered.runs key = false) :
    ∃ nexts, last.Represents hash fingerprintKey nexts ∧
      last.router.shards.length = process.router.shards.length ∧
      (last.running = true → RunsFor nexts owner key fingerprint) := by
  induction between generalizing process points log with
  | nil =>
      cases hrun
      exact ⟨points, hrep, rfl, hruns⟩
  | cons event between ih =>
      obtain ⟨entered, next, nexts, hstep, hshifts, hnext, hlength⟩ := step_refines hrep hfits.1
      rw [List.map_cons, runSteps_cons_ok hstep] at hrun
      cases hrest : runSteps (step hash fingerprintKey) next (between.map .enter) with
      | error failure => rw [hrest] at hrun; cases hrun
      | ok rest =>
          obtain ⟨restLog, restLast⟩ := rest
          rw [hrest] at hrun
          cases hrun
          have hkept : next.running = true → RunsFor nexts owner key fingerprint := by
            intro hrunning
            obtain ⟨hbefore, hpanicked⟩ := running_before hstep hrunning
            apply hshifts.inProgress hpanicked
            · rintro one rfl
              exact halone one List.mem_cons_self
            · exact hruns hbefore
          obtain ⟨lasts, hlast, hlastLength, hlastRuns⟩ := ih hnext hkept (hfits.tail hstep) hrest
            fun one hone => halone one (List.mem_cons_of_mem _ hone)
          exact ⟨lasts, hlast, hlastLength.trans hlength, hlastRuns⟩

/-! ## What a section writes -/

/-- An engine call is made by a section of a running process, on the shard it enters. -/
theorem call_eq_some {event : Event} {index : Nat} {call : EngineCall}
    (hcall : process.call hash event = some (index, call)) :
    ∃ entering shard, event = .enter entering ∧ process.running = true ∧
      index = (process.router.enters hash entering).1 ∧
      process.router.shards[index]? = some shard ∧
      shard.call (process.router.enters hash entering).2.1 = some call := by
  cases event with
  | restart count => cases hcall
  | enter entering =>
      simp only [Process.call] at hcall
      split at hcall
      next hrunning =>
        obtain ⟨shard, hshard, hmade⟩ := Option.bind_eq_some_iff.mp hcall
        obtain ⟨_, hshardCall, hsame⟩ := Option.map_eq_some_iff.mp hmade
        cases hsame
        exact ⟨entering, shard, rfl, hrunning, rfl, hshard, hshardCall⟩
      next => contradiction

/-- A begin goes to the shard that owns its key. -/
theorem call_begin {index : Nat} {begun : IdempotencyKey} {fingerprint : RequestFingerprint}
    {nowMs startedMs : UInt64} {io : Io} {points : Nat → Point}
    (hrep : process.Represents hash fingerprintKey points)
    (hcall : process.call hash (.enter (.begin io request startedMs)) =
      some (index, .begin begun fingerprint nowMs)) :
    request.header "idempotency-key" = some begun.val ∧
      index = process.router.shardForKey hash begun.val ∧
      fingerprint = fingerprintOf request fingerprintKey := by
  obtain ⟨_, shard, hevent, _, rfl, hshard, hshardCall⟩ := call_eq_some hcall
  cases hevent
  obtain ⟨found, hfound, hbegin⟩ := Option.map_eq_some_iff.mp hshardCall
  cases hbegin
  refine ⟨hfound, Router.routeShard_keyed hash process.router hfound, ?_⟩
  rw [hrep.fingerprintKey shard (List.mem_of_getElem? hshard)]

/-- A completion stores the backend's response, on the shard that owns the key. -/
theorem call_complete {index place slot : Nat} {token : RunToken} {outcome : CachedOutcome}
    {nowMs : UInt64} {io : Io} {points : Nat → Point}
    (hrep : process.Represents hash fingerprintKey points)
    (hcall : process.call hash (.enter (.complete io place slot (.ok response))) =
      some (index, .complete token outcome nowMs)) :
    index = process.router.shardForKey hash token.key.val ∧ outcome = toOutcome response := by
  obtain ⟨_, shard, hevent, _, rfl, hshard, hshardCall⟩ := call_eq_some hcall
  cases hevent
  simp only [Router.enters, Shard.call] at hshardCall hshard
  split at hshardCall
  next forward hslot =>
    obtain ⟨⟨held, answered⟩, hcommit, hcomplete⟩ := Option.map_eq_some_iff.mp hshardCall
    cases hcomplete
    obtain ⟨hheld, hanswered, -⟩ := ForwardTicket.commit_eq_some hcommit
    cases hanswered
    exact ⟨(hrep.owned _ shard hshard forward (List.mem_of_getElem? hslot) _ hheld).symm, rfl⟩
  next => contradiction

/-- A section that makes an engine call answers what the engine plans. -/
theorem entered_of_step {event : Router.Event} {entered : Router.Entered}
    (hstep : process.step hash fingerprintKey (.enter event) = .ok (some entered, next))
    {call : EngineCall} {answer : Answer} (hentry : entered.handled.entry = some (call, answer)) :
    process.running = true ∧ ∃ shard,
      process.router.shards[(process.router.enters hash event).1]? = some shard ∧
      shard.call (process.router.enters hash event).2.1 = some call ∧
      answer = (shard.gateway.engine.plan call).answer ∧
      Tells (process.router.enters hash event).2.1 call answer entered.handled.reply := by
  rcases step_enter hstep with ⟨-, hnone, -⟩ | ⟨hrunning, one, router, hrouter, hone, -⟩
  · cases hnone
  · obtain rfl := Option.some.inj hone
    obtain ⟨_, _, hsame, -, ⟨hnone, -⟩ | ⟨shard, after, hshard, hshardStep, -⟩⟩ :=
      @Router.step_eq _ _ hash process.router event
    · cases hrouter.symm.trans hsame
      rw [hentry] at hnone
      contradiction
    · cases hrouter.symm.trans hsame
      obtain ⟨place, handled⟩ := entered
      have hdoes := Shard.does_of_step hshardStep
      cases hdoes with
      | passes => cases hentry
      | returns hcall hrun htells =>
          cases hentry
          exact ⟨hrunning, shard, hshard, hcall, (Engine.run_eq_ok hrun).1, htells⟩
      | panics => cases hentry

/-- A completion that is accepted is answered as created. -/
theorem reply_of_committed {io : Io} {index slot : Nat}
    (hstep : process.step hash fingerprintKey (.enter (.complete io index slot (.ok response))) =
      .ok (some created, next)) (hcommitted : created.handled.committed =
        some (key, completedAtMs)) :
    created.handled.reply = .answered (tag response "created") := by
  obtain ⟨token, outcome, hentry, -⟩ := Handled.committed_eq_some hcommitted
  obtain ⟨-, shard, -, -, -, htells⟩ := entered_of_step hstep hentry
  generalize created.handled.reply = reply at htells ⊢
  cases htells
  rfl

/-- The ticket of a begin locks its key on the shard that owns it. -/
theorem runsFor_of_ticket {points : Nat → Point}
    (hrep : process.Represents hash fingerprintKey points) {io : Io} {startedMs : UInt64}
    {begun : Router.Entered} (hfits : process.Fits hash (.enter (.begin io request startedMs)))
    (hstep : process.step hash fingerprintKey (.enter (.begin io request startedMs)) =
      .ok (some begun, next)) (hticketed : begun.runs key = true) :
    request.header "idempotency-key" = some key.val ∧ ∃ nexts,
      next.Represents hash fingerprintKey nexts ∧
      next.router.shards.length = process.router.shards.length ∧
      RunsFor nexts (process.router.shardForKey hash key.val) key
        (fingerprintOf request fingerprintKey) := by
  obtain ⟨fingerprint, nowMs, hsome⟩ := Router.Entered.runs_eq_true hticketed
  obtain ⟨token, hentry⟩ := Handled.ticketed_eq_some hsome
  obtain ⟨_, _, nexts, hsame, hshifts, hnext, hlength⟩ := step_refines hrep hfits
  cases hstep.symm.trans hsame
  cases hshifts with
  | rests hnone =>
      rw [hnone begun rfl] at hentry
      contradiction
  | @calls _ index call io answer reply point hcall _ hmove =>
      obtain ⟨given, hgiven, hpair⟩ := Option.map_eq_some_iff.mp hentry
      cases hpair
      cases hgiven
      obtain ⟨hkey, rfl, rfl⟩ := call_begin hrep hcall
      obtain ⟨hanswer, rfl⟩ := hmove.returned
      obtain ⟨haction, -⟩ := EngineCall.plan_begin_run hanswer.symm
      refine ⟨hkey, _, hnext, hlength, fun fence other leaseExpiresAtMs hstate => ?_⟩
      rw [Function.update_self, Point.states_after, Point.plan,
        EngineCall.plan_begin_start haction] at hstate
      simp only [Plan.effect_some, StoreCall.effect, if_true] at hstate
      cases hstate
      rfl

/-- What was created is on file. -/
theorem Creates.stored (hreached : Reached hash fingerprintKey process)
    (hcreates : Creates hash fingerprintKey process request key response completedAtMs created
      next) :
    request.header "idempotency-key" = some key.val ∧
      created.handled.reply = .answered (tag response "created") ∧ ∃ points,
      next.Represents hash fingerprintKey points ∧
      (points (next.router.shardForKey hash key.val)).states key =
        some (.completed (fingerprintOf request fingerprintKey) (toOutcome response)
          completedAtMs) := by
  obtain ⟨points, hrep⟩ := hreached.represents
  obtain @⟨_, _, _, _, _, _, _, one, two, _, _, _, hbegin, hbeginFits, hticketed, hbetween,
    hbetweenFits, halone, hcomplete, hcompleteFits, hcommitted⟩ := hcreates
  obtain ⟨hkey, ones, hone, honeLength, honeRuns⟩ :=
    runsFor_of_ticket hrep hbeginFits hbegin hticketed
  obtain ⟨twos, htwo, htwoLength, htwoRuns⟩ :=
    runsFor_of_run hone (fun _ => honeRuns) hbetweenFits hbetween halone
  obtain ⟨token, outcome, hentry, rfl⟩ := Handled.committed_eq_some hcommitted
  refine ⟨hkey, reply_of_committed hcomplete hcommitted, ?_⟩
  obtain ⟨_, _, nexts, hsame, hshifts, hnext, hlength⟩ := step_refines htwo hcompleteFits
  cases hcomplete.symm.trans hsame
  have hrunning := (entered_of_step hcomplete hentry).1
  have howner : ∀ router : Router WalStore,
      router.shards.length = process.router.shards.length →
      router.shardForKey hash token.key.val = process.router.shardForKey hash token.key.val := by
    intro router hshards
    rw [Router.shardForKey, Router.shardForKey, hshards]
  have hruns := htwoRuns hrunning
  rw [← howner two.router (htwoLength.trans honeLength)] at hruns
  cases hshifts with
  | rests hnone =>
      rw [hnone _ rfl] at hentry
      contradiction
  | @calls _ index call io answer reply point hcall _ hmove =>
      obtain ⟨given, hgiven, hpair⟩ := Option.map_eq_some_iff.mp hentry
      cases hpair
      cases hgiven
      obtain ⟨rfl, rfl⟩ := call_complete htwo hcall
      obtain ⟨hanswer, rfl⟩ := hmove.returned
      obtain ⟨fingerprint, leaseExpiresAtMs, hstate⟩ := EngineCall.plan_complete_ok hanswer.symm
      obtain rfl := hruns _ _ _ hstate
      refine ⟨_, hnext, ?_⟩
      rw [howner next.router (hlength.trans (htwoLength.trans honeLength)),
        ← howner two.router (htwoLength.trans honeLength), Function.update_self, Point.states_after,
        Point.plan, EngineCall.plan_complete_holder hstate]
      simp only [Plan.effect_some, StoreCall.effect, if_true]

end Outcomes

/-! ## A charge that is created -/

section Charges

variable {hash : String → UInt64} {process : Process}

/-- Enter a section of a shard that does not panic. -/
theorem step_entered {fingerprintKey : Bytes32} (hrunning : process.running = true)
    {event : Router.Event} {shard after : Shard WalStore} {handled : Handled}
    (hshard : process.router.shards[(process.router.enters hash event).1]? = some shard)
    (hstep : shard.step (process.router.enters hash event).2.1 = .ok (handled, after))
    (hreply : (Router.Entered.mk (process.router.enters hash event).1 handled).panicked = false) :
    ∃ router, process.step hash fingerprintKey (.enter event) =
        .ok (some ⟨(process.router.enters hash event).1, handled⟩,
          { process with router := router, running := true }) ∧
      router.shards = process.router.shards.set (process.router.enters hash event).1 after := by
  obtain ⟨router, hrouter, hshards⟩ := Router.step_on hshard hstep
  refine ⟨router, ?_, hshards⟩
  simp only [step, hrunning, if_true, hrouter, hreply]
  rfl

/-- What an event may write is what its engine call on the shard may write. -/
theorem fits_of_shard {event : Router.Event} {shard : Shard WalStore}
    (hshard : process.router.shards[(process.router.enters hash event).1]? = some shard)
    (hcalls : ∀ call, shard.call (process.router.enters hash event).2.1 = some call → call.Fits) :
    process.Fits hash (.enter event) := by
  intro index call hcall
  simp only [Process.call, hshard, Option.bind_some] at hcall
  split at hcall
  next =>
    obtain ⟨made, hmade, hpair⟩ := Option.map_eq_some_iff.mp hcall
    obtain ⟨-, rfl⟩ := Prod.mk.inj hpair
    exact hcalls made hmade
  next => cases hcall

/-- A charge on a new process that the backend answers. -/
theorem creates_charge (hash : String → UInt64) (count : ℕ+) {response : Response}
    (hstatus : ¬ response.status ≥ 500)
    (hfits : Wal.Fits (⟨"k"⟩, .completed ⟨genesis⟩ (toOutcome response) 0)) :
    ∃ process created next, Reached hash genesis process ∧
      Creates hash genesis process charge ⟨"k"⟩ response 0 created next ∧
      next.running = true ∧ next.router.shards.length = count ∧ next.disk = fun _ => [] := by
  obtain ⟨process, hstart, hlength, hrunning, hdisk, hforwards, hrep⟩ :=
    @start_represents (fun _ => []) hash (fun _ => Point.restart []) count (fun _ => opensTo_empty)
      (fun _ => rfl) (fun _ _ => rfl) genesis
  have hplace : (process.router.enters hash (.begin .done charge 0)).1 =
      (hash "k").toNat % count := by
    rw [← hlength]
    exact Router.routeShard_keyed hash process.router charge_key
  obtain ⟨shard, hshard⟩ : ∃ shard,
      process.router.shards[(process.router.enters hash (.begin .done charge 0)).1]? =
        some shard := by
    refine ⟨_, List.getElem?_eq_getElem ?_⟩
    rw [hplace, hlength]
    exact Nat.mod_lt _ count.pos
  have hmem := List.mem_of_getElem? hshard
  have hnode := hrep.shards hrunning _ shard hshard
  have hnone : shard.states ⟨"k"⟩ = none := by
    rw [Shard.states, hnode.states]
    rfl
  obtain ⟨locked, hbegin, hsetup, hlocked, -, hlockedForwards⟩ :=
    shard.step_starts 0 charge_key (by rw [hnone]; rfl)
  rw [hforwards shard hmem] at hlockedForwards
  obtain ⟨router, hone, hrouter⟩ := @step_entered hash process genesis hrunning
    (.begin .done charge 0) shard locked _ hshard hbegin rfl
  have hagain : router.shards[(hash "k").toNat % count]? = some locked := by
    rw [hrouter, ← hplace]
    exact List.getElem?_set_self (List.getElem?_eq_some_iff.mp hshard).1
  obtain ⟨completed, hcommit, -⟩ := locked.step_commits
    (show locked.forwards[0]? = some (some ⟨⟨some ⟨⟨"k"⟩, ⟨shard.gateway.engine.nextFence⟩⟩⟩, 0⟩) by
      rw [hlockedForwards]
      rfl) hstatus hlocked
  obtain ⟨last, htwo, hlast⟩ := @step_entered hash
    { process with router := router, running := true } genesis rfl
    (.complete .done ((hash "k").toNat % count) 0 (.ok response)) locked completed _ hagain hcommit
    rfl
  have hbetween : runSteps (step hash genesis) { process with router := router, running := true }
      (List.map Event.enter []) =
        .ok ([], { process with router := router, running := true }) := rfl
  have hbeginFits : process.Fits hash (.enter (.begin .done charge 0)) := by
    refine fits_of_shard hshard fun call hcall => ?_
    simp only [Router.enters, Shard.call, charge_key, Option.map_some] at hcall
    cases hcall
    exact fits_inProgress (show Wal.Fits (⟨"k"⟩, .inProgress ⟨0⟩ ⟨genesis⟩ 0) by decide)
  have hcompleteFits : Process.Fits hash { process with router := router, running := true }
      (.enter (.complete .done ((hash "k").toNat % count) 0 (.ok response))) := by
    refine fits_of_shard hagain fun call hcall => ?_
    simp only [Router.enters, Shard.call, hlockedForwards] at hcall
    simp [ForwardTicket.commit, hstatus] at hcall
    subst hcall
    exact fits_completed hfits
  refine ⟨process, _, _, ⟨count, [], [], process, hstart, trivial, rfl⟩,
    .intro hone hbeginFits (by simp [Router.Entered.runs, Handled.ticketed]) hbetween trivial
      (fun _ hnone => absurd hnone List.not_mem_nil) htwo hcompleteFits rfl, rfl, ?_, hdisk⟩
  rw [hlast, List.length_set, hrouter, List.length_set, hlength]

/-- A process that is only restarted is running. -/
theorem running_of_restarts {fingerprintKey : Bytes32} {events : List Event} {last : Process}
    {log : List (Option Router.Entered)}
    (hevents : ∀ event ∈ events, ∃ count, event = .restart count)
    (hrunning : process.running = true)
    (hrun : runSteps (step hash fingerprintKey) process events = .ok (log, last)) :
    last.running = true := by
  apply runSteps_invariant (fun process : Process => process.running = true) ?_ hrunning hrun
  intro event hevent state entered next _ hstep
  obtain ⟨count, rfl⟩ := hevents event hevent
  simp only [step, start, bind, Except.bind, pure, Except.pure] at hstep
  split at hstep
  next => cases hstep
  next => cases hstep; rfl

end Charges

/-! ## Retries -/

section Retries

variable {hash : String → UInt64} {fingerprintKey : Bytes32} {process next : Process}
  {request : Request} {key : IdempotencyKey} {response : Response} {completedAtMs : UInt64}
  {created : Router.Entered} {fingerprint : RequestFingerprint} {outcome : CachedOutcome}

/-- The event leaves the outcome of the key where it is: its records fit, the shard
that owns the key sees nothing after the deadline, and a restart gives the key to the
shard of the same number. -/
structure Keeps (hash : String → UInt64) (key : IdempotencyKey) (deadline : UInt64)
    (process : Process) (event : Event) : Prop where
  fits : process.Fits hash event
  live : ∀ call, process.call hash event = some (process.router.shardForKey hash key.val, call) →
    ¬ call.Expires key deadline
  stays : ∀ count : ℕ+, event = .restart count →
    (hash key.val).toNat % count = process.router.shardForKey hash key.val

theorem shardForKey_kept {event : Event}
    (hlength : next.router.shards.length = process.countAfter event)
    (hstays : ∀ count : ℕ+, event = .restart count →
      (hash key.val).toNat % count = process.router.shardForKey hash key.val) :
    next.router.shardForKey hash key.val = process.router.shardForKey hash key.val := by
  cases event with
  | enter event =>
      rw [Router.shardForKey, hlength]
      rfl
  | restart count =>
      rw [← hstays count rfl, Router.shardForKey, hlength]
      rfl

/-- The outcome of the key is on the file of the shard that owns it. -/
def Holds (hash : String → UInt64) (fingerprintKey : Bytes32) (key : IdempotencyKey)
    (state : KeyState) (process : Process) : Prop :=
  ∃ points, process.Represents hash fingerprintKey points ∧
    (points (process.router.shardForKey hash key.val)).states key = some state

theorem Holds.step (hholds : process.Holds hash fingerprintKey key
      (.completed fingerprint outcome completedAtMs)) {event : Event}
    (hkeeps : process.Keeps hash key (saturatingAdd completedAtMs defaultTtlMs) event) :
    ∃ entered next, process.step hash fingerprintKey event = .ok (entered, next) ∧
      next.Holds hash fingerprintKey key (.completed fingerprint outcome completedAtMs) := by
  obtain ⟨points, hrep, hstate⟩ := hholds
  obtain ⟨entered, next, nexts, hstep, hshifts, hnext, hlength⟩ := step_refines hrep hkeeps.fits
  refine ⟨entered, next, hstep, nexts, hnext, ?_⟩
  rw [shardForKey_kept hlength hkeeps.stays]
  exact hshifts.keeps (hrep.settled _) hstate hkeeps.live

/-- The outcome stays on file through sections and restarts. -/
theorem Holds.run (hholds : process.Holds hash fingerprintKey key
      (.completed fingerprint outcome completedAtMs)) {events : List Event}
    (hkeeps : Along (Process.step hash fingerprintKey)
      (Keeps hash key (saturatingAdd completedAtMs defaultTtlMs)) process events) :
    ∃ log last, runSteps (Process.step hash fingerprintKey) process events = .ok (log, last) ∧
      last.Holds hash fingerprintKey key (.completed fingerprint outcome completedAtMs) := by
  obtain ⟨log, last, hrun, -, hlast⟩ := @exists_path_of_invariant _ _ _ _
    (Process.step hash fingerprintKey) (fun _ _ _ _ => True)
    (Holds hash fingerprintKey key (.completed fingerprint outcome completedAtMs)) _ (by
      intro current event hcurrent hevent
      obtain ⟨entered, next, hstep, hnext⟩ := hcurrent.step hevent
      exact ⟨entered, next, hstep, trivial, hnext⟩) events process hholds hkeeps
  exact ⟨log, last, hrun, hlast⟩

/-- A retry is answered from the file, and is not forwarded. -/
theorem Holds.replays (hholds : process.Holds hash fingerprintKey key
      (.completed (fingerprintOf request fingerprintKey) outcome completedAtMs))
    (hrunning : process.running = true)
    (hkey : request.header "idempotency-key" = some key.val) {nowMs : UInt64}
    (hnow : nowMs < saturatingAdd completedAtMs defaultTtlMs) (io : Io) :
    ∃ next, process.step hash fingerprintKey (.enter (.begin io request nowMs)) =
      .ok (some ⟨process.router.shardForKey hash key.val,
        .answered (tag (fromOutcome outcome) "replayed"),
        some (.begin key (fingerprintOf request fingerprintKey) nowMs, .begun (.replay outcome))⟩,
        next) := by
  obtain ⟨points, hrep, hstate⟩ := hholds
  have hbound : process.router.shardForKey hash key.val < process.router.shards.length :=
    Nat.mod_lt _ hrep.nonempty
  obtain ⟨shard, hshard⟩ :
      ∃ shard, process.router.shards[process.router.shardForKey hash key.val]? = some shard :=
    ⟨_, List.getElem?_eq_getElem hbound⟩
  have hnode := hrep.shards hrunning _ shard hshard
  have hfingerprint := hrep.fingerprintKey shard (List.mem_of_getElem? hshard)
  have hplace : (process.router.enters hash (.begin io request nowMs)).1 =
      process.router.shardForKey hash key.val :=
    Router.routeShard_keyed hash process.router hkey
  obtain ⟨after, hafter, -⟩ := shard.step_replays io hkey
    (show shard.states ⟨key.val⟩ = some (.completed (fingerprintOf request
        shard.gateway.fingerprintKey) outcome completedAtMs) by
      rw [Shard.states, hnode.states, hfingerprint]
      exact hstate)
    (show nowMs < saturatingAdd completedAtMs shard.gateway.engine.ttlMs by
      rw [hnode.ttlMs]
      exact hnow)
  obtain ⟨router, hrouter, -⟩ := @Router.step_on _ _ hash process.router
    (.begin io request nowMs) shard after _ (hplace ▸ hshard) hafter
  rw [hplace, hfingerprint] at hrouter
  refine ⟨{ process with router := router, running := true }, ?_⟩
  simp only [Process.step, hrunning, if_true, hrouter]
  rfl

/-- A key that was completed with `N` shards is replayed after a restart with `N'`
shards, if it falls to the shard of the same number. -/
theorem replayed_after_restart (hreached : Reached hash fingerprintKey process)
    (hcreates : Creates hash fingerprintKey process request key response completedAtMs created next)
    {middle later : List Event} {count : ℕ+}
    (hkeeps : Along (step hash fingerprintKey)
      (Keeps hash key (saturatingAdd completedAtMs defaultTtlMs)) next
      (middle ++ .restart count :: later))
    {retry : Request} (hkey : retry.header "idempotency-key" = some key.val)
    (hsame : fingerprintOf retry fingerprintKey = fingerprintOf request fingerprintKey)
    {nowMs : UInt64} (hnow : nowMs < saturatingAdd completedAtMs defaultTtlMs) :
    ∃ log last, runSteps (step hash fingerprintKey) next (middle ++ .restart count :: later) =
        .ok (log, last) ∧
      (last.running = true → ∀ io, ∃ after,
        last.step hash fingerprintKey (.enter (.begin io retry nowMs)) =
          .ok (some ⟨last.router.shardForKey hash key.val,
            .answered (tag (fromOutcome (toOutcome response)) "replayed"),
            some (.begin key (fingerprintOf retry fingerprintKey) nowMs,
              .begun (.replay (toOutcome response)))⟩, after)) := by
  obtain ⟨-, -, points, hrep, hstate⟩ := hcreates.stored hreached
  have hholds : next.Holds hash fingerprintKey key (.completed
      (fingerprintOf request fingerprintKey) (toOutcome response) completedAtMs) :=
    ⟨points, hrep, hstate⟩
  obtain ⟨log, last, hrun, hlast⟩ := hholds.run hkeeps
  rw [← hsame] at hlast
  exact ⟨log, last, hrun, fun hrunning io => hlast.replays hrunning hkey hnow io⟩

/-- The restart gives the key back to its shard. -/
theorem keeps_restart {key : IdempotencyKey} {deadline : UInt64} {count : ℕ+}
    (hstays : (hash key.val).toNat % count = process.router.shardForKey hash key.val) :
    process.Keeps hash key deadline (.restart count) := by
  constructor
  case fits => exact fun _ _ hnone => nomatch hnone
  case live => exact fun _ hnone => nomatch hnone
  case stays =>
    rintro other hother
    cases hother
    exact hstays

/-- A charge that was created with one shard is replayed by two of them. -/
theorem replayed_after_restart_charge :
    ∃ process created next, Reached (fun _ => 2) genesis process ∧
      Creates (fun _ => 2) genesis process charge ⟨"k"⟩ ⟨200, [], [2]⟩ 0 created next ∧
      next.router.shards.length = 1 ∧
      ∃ log last, runSteps (step (fun _ => 2) genesis) next [.restart 2] = .ok (log, last) ∧
        ∃ after, last.step (fun _ => 2) genesis (.enter (.begin .done charge 1)) =
          .ok (some ⟨last.router.shardForKey (fun _ => 2) "k",
            .answered (tag (fromOutcome (toOutcome ⟨200, [], [2]⟩)) "replayed"),
            some (.begin ⟨"k"⟩ (fingerprintOf charge genesis) 1,
              .begun (.replay (toOutcome ⟨200, [], [2]⟩)))⟩, after) := by
  obtain ⟨process, created, next, hreached, hcreates, hrunning, hlength, -⟩ :=
    @creates_charge (fun _ => 2) 1 ⟨200, [], [2]⟩ (by decide) (by decide)
  have hstays : ((fun _ => 2 : String → UInt64) "k").toNat % ((2 : ℕ+) : Nat) =
      next.router.shardForKey (fun _ => 2) "k" := by
    rw [Router.shardForKey, hlength]
    rfl
  have hkeeps : Along (step (fun _ => 2) genesis) (Keeps (fun _ => 2) ⟨"k"⟩
      (saturatingAdd 0 defaultTtlMs)) next [.restart 2] := by
    refine ⟨keeps_restart hstays, ?_⟩
    split <;> trivial
  obtain ⟨log, last, hrun, hreplays⟩ := @replayed_after_restart _ _ _ _ _ _ _ _ _ hreached hcreates
    [] [] 2 hkeeps charge charge_key rfl 1 (by decide)
  refine ⟨process, created, next, hreached, hcreates, hlength, log, last, hrun, hreplays ?_ .done⟩
  exact running_of_restarts (by simp) hrunning hrun

/-- A charge that was created with one shard falls to the other of two, and is sent to
the backend a second time. -/
theorem forwarded_after_restart :
    ∃ process created next, Reached (fun _ => 1) genesis process ∧
      Creates (fun _ => 1) genesis process charge ⟨"k"⟩ ⟨200, [], [2]⟩ 0 created next ∧
      created.handled.reply = .answered (tag ⟨200, [], [2]⟩ "created") ∧
      next.router.shards.length = 1 ∧
      ∃ started, next.step (fun _ => 1) genesis (.restart 2) = .ok (none, started) ∧
        ∃ ticket entry after, started.step (fun _ => 1) genesis (.enter (.begin .done charge 1)) =
          .ok (some ⟨1, .forwarding ticket, entry⟩, after) := by
  obtain ⟨process, created, next, hreached, hcreates, hrunning, hlength, hdisk⟩ :=
    @creates_charge (fun _ => 1) 1 ⟨200, [], [2]⟩ (by decide) (by decide)
  obtain ⟨-, hcreated, points, hrep, -⟩ := hcreates.stored hreached
  -- the file of the second shard has not been there before
  have hfile : ∀ index ≠ 0, next.file index = [] := by
    intro index hindex
    have hnone : next.router.shards[index]? = none :=
      List.getElem?_eq_none (by rw [hlength]; exact Nat.one_le_iff_ne_zero.mpr hindex)
    simp [file, hnone, hdisk]
  have hopens : ∀ index, OpensTo (next.file index) (if index = 0 then
      Point.restart (points 0).ledger.durable else Point.restart []).ledger.durable := by
    intro index
    split
    next hindex => exact hindex ▸ hrep.files 0
    next hindex => exact hfile index hindex ▸ opensTo_empty
  obtain ⟨started, hstart, hcount, halive, -, -, hstarted⟩ := start_represents (fun _ => 1) 2 hopens
    (fun index => by split <;> rfl) (fun index _ => by split <;> rfl) genesis
  refine ⟨process, created, next, hreached, hcreates, hcreated, hlength, started,
    by rw [step, hstart]; rfl, ?_⟩
  have hplace : (started.router.enters (fun _ => 1) (.begin .done charge 1)).1 = 1 := by
    refine (Router.routeShard_keyed (fun _ => 1) started.router charge_key).trans ?_
    rw [Router.shardForKey, hcount]
    rfl
  obtain ⟨shard, hshard⟩ : ∃ shard, started.router.shards[1]? = some shard :=
    ⟨_, List.getElem?_eq_getElem (by rw [hcount]; decide)⟩
  have hnone : shard.states ⟨"k"⟩ = none := by
    rw [Shard.states, (hstarted.shards halive 1 shard hshard).states]
    rfl
  obtain ⟨after, hafter, -⟩ := shard.step_starts 1 charge_key (by rw [hnone]; rfl)
  obtain ⟨router, hstep, -⟩ := @step_entered (fun _ => 1) started genesis halive
    (.begin .done charge 1) shard after _ (by rw [hplace]; exact hshard) hafter rfl
  rw [hplace] at hstep
  exact ⟨_, _, _, hstep⟩

end Retries

/-! ## Fidelity -/

section Fidelity

variable {hash : String → UInt64} {fingerprintKey : Bytes32} {process next : Process}
  {request : Request} {key : IdempotencyKey} {response : Response} {completedAtMs : UInt64}
  {created : Router.Entered} {fingerprint : RequestFingerprint} {outcome : CachedOutcome}

/-- The event leaves the key with its shard, and completes no other run of it. -/
structure Spares (hash : String → UInt64) (key : IdempotencyKey) (process : Process)
    (event : Event) : Prop where
  fits : process.Fits hash event
  stays : ∀ count : ℕ+, event = .restart count →
    (hash key.val).toNat % count = process.router.shardForKey hash key.val
  refused : ∀ token response nowMs, process.call hash event =
    some (process.router.shardForKey hash key.val, .complete token response nowMs) →
    token.key = key → ∀ shard,
    process.router.shards[process.router.shardForKey hash key.val]? = some shard →
    ∀ stored leaseExpiresAtMs, shard.states key ≠
      some (.inProgress token.fence stored leaseExpiresAtMs)

/-- If the file of the key's shard has an outcome for the key, it is this one. -/
def Remembers (hash : String → UInt64) (fingerprintKey : Bytes32) (key : IdempotencyKey)
    (outcome : CachedOutcome) (process : Process) : Prop :=
  ∃ points, process.Represents hash fingerprintKey points ∧
    ∀ stored other time, (points (process.router.shardForKey hash key.val)).states key =
      some (.completed stored other time) → other = outcome

theorem Remembers.step (hremembers : process.Remembers hash fingerprintKey key outcome)
    {event : Event} (hspares : process.Spares hash key event) :
    ∃ entered next, process.step hash fingerprintKey event = .ok (entered, next) ∧
      next.Remembers hash fingerprintKey key outcome := by
  obtain ⟨points, hrep, honly⟩ := hremembers
  obtain ⟨entered, next, nexts, hstep, hshifts, hnext, hlength⟩ := step_refines hrep hspares.fits
  refine ⟨entered, next, hstep, nexts, hnext, ?_⟩
  rw [shardForKey_kept hlength hspares.stays]
  apply hshifts.completed (hrep.settled _) ?_ honly
  intro token response nowMs hcall hkey
  obtain ⟨_, shard, _, hrunning, _, hshard, _⟩ := call_eq_some hcall
  have hstates := (hrep.shards hrunning _ shard hshard).states
  rw [← hstates]
  exact hspares.refused token response nowMs hcall hkey shard hshard

theorem Remembers.run (hremembers : process.Remembers hash fingerprintKey key outcome)
    {events : List Event}
    (hspares : Along (Process.step hash fingerprintKey) (Spares hash key) process events) :
    ∃ log last, runSteps (Process.step hash fingerprintKey) process events = .ok (log, last) ∧
      last.Remembers hash fingerprintKey key outcome := by
  obtain ⟨log, last, hrun, -, hlast⟩ := @exists_path_of_invariant _ _ _ _
    (Process.step hash fingerprintKey) (fun _ _ _ _ => True)
    (Remembers hash fingerprintKey key outcome) _ (by
      intro current event hcurrent hevent
      obtain ⟨entered, next, hstep, hnext⟩ := hcurrent.step hevent
      exact ⟨entered, next, hstep, trivial, hnext⟩) events process hremembers hspares
  exact ⟨log, last, hrun, hlast⟩

/-- What is replayed for the key is the outcome that is remembered. -/
theorem Remembers.replays (hremembers : process.Remembers hash fingerprintKey key outcome)
    {retry : Request} {nowMs : UInt64} {io : Io} {entered : Router.Entered}
    (hstep : process.step hash fingerprintKey (.enter (.begin io retry nowMs)) =
      .ok (some entered, next)) {replayed : CachedOutcome}
    (hentry : entered.handled.entry =
      some (.begin key fingerprint nowMs, .begun (.replay replayed))) :
    entered.handled.reply = .answered (tag (fromOutcome outcome) "replayed") := by
  obtain ⟨points, hrep, honly⟩ := hremembers
  obtain ⟨hrunning, shard, hshard, hcall, hanswer, htells⟩ := entered_of_step hstep hentry
  obtain ⟨completedAtMs, hstate⟩ := EngineCall.plan_begin_replay hanswer.symm
  obtain ⟨found, hfound, hsame⟩ := Option.map_eq_some_iff.mp hcall
  cases hsame
  have hplace : (process.router.enters hash (.begin io retry nowMs)).1 =
      process.router.shardForKey hash found := Router.routeShard_keyed hash process.router hfound
  rw [hplace] at hshard
  rw [(hrep.shards hrunning _ shard hshard).states] at hstate
  obtain rfl := honly _ _ _ hstate
  generalize entered.handled.reply = reply at htells ⊢
  cases htells
  rfl

/-- A response whose header names are distinct comes back as it was. -/
theorem fromOutcome_toOutcome_headers_perm (response : Response) :
    (fromOutcome (toOutcome response)).headers.Perm response.headers ↔
      (response.headers.map Prod.fst).Nodup :=
  toList_insertAll_perm_iff

/-- What is replayed for a key is what was created: the same status, the same body and,
if no header name occurs twice, the same headers. -/
theorem replay_fidelity (hreached : Reached hash fingerprintKey process)
    (hcreates : Creates hash fingerprintKey process request key response completedAtMs created next)
    (hnames : (response.headers.map Prod.fst).Nodup) {events : List Event}
    (hspares : Along (Process.step hash fingerprintKey) (Spares hash key) next events) :
    created.handled.reply = .answered (tag response "created") ∧
    ∃ log last, runSteps (Process.step hash fingerprintKey) next events = .ok (log, last) ∧
      ∀ io retry nowMs entered after, last.step hash fingerprintKey
          (.enter (.begin io retry nowMs)) = .ok (some entered, after) →
        ∀ fingerprint outcome, entered.handled.entry =
          some (.begin key fingerprint nowMs, .begun (.replay outcome)) →
        ∃ replayed : Response, entered.handled.reply = .answered (tag replayed "replayed") ∧
          replayed.status = response.status ∧ replayed.body = response.body ∧
          replayed.headers.Perm response.headers := by
  obtain ⟨-, hcreated, points, hrep, hstate⟩ := hcreates.stored hreached
  have hremembers : next.Remembers hash fingerprintKey key (toOutcome response) := by
    refine ⟨points, hrep, fun stored other time hother => ?_⟩
    cases hstate.symm.trans hother
    rfl
  obtain ⟨log, last, hrun, hlast⟩ := hremembers.run hspares
  refine ⟨hcreated, log, last, hrun, fun io retry nowMs entered after hstep fingerprint outcome
    hentry => ⟨fromOutcome (toOutcome response), ?_, rfl, rfl, ?_⟩⟩
  · exact hlast.replays hstep hentry
  · exact (fromOutcome_toOutcome_headers_perm response).mpr hnames

/-- A restart completes no run of the key. -/
theorem spares_restart {key : IdempotencyKey} {count : ℕ+}
    (hstays : (hash key.val).toNat % count = process.router.shardForKey hash key.val) :
    process.Spares hash key (.restart count) := by
  have hkeeps : process.Keeps hash key 0 (.restart count) := keeps_restart hstays
  exact ⟨hkeeps.fits, hkeeps.stays, fun _ _ _ hnone => nomatch hnone⟩

/-- A charge is created with one shard, and retried with two. -/
theorem charge_retried {response : Response} (hstatus : ¬ response.status ≥ 500)
    (hfits : Wal.Fits (⟨"k"⟩, .completed ⟨genesis⟩ (toOutcome response) 0)) :
    ∃ process created next, Reached (fun _ => 2) genesis process ∧
      Creates (fun _ => 2) genesis process charge ⟨"k"⟩ response 0 created next ∧
      created.handled.reply = .answered (tag response "created") ∧
      Along (step (fun _ => 2) genesis) (Spares (fun _ => 2) ⟨"k"⟩) next [.restart 2] ∧
      ∃ log last, runSteps (step (fun _ => 2) genesis) next [.restart 2] = .ok (log, last) ∧
        ∃ index after, last.step (fun _ => 2) genesis (.enter (.begin .done charge 1)) =
          .ok (some ⟨index, .answered (tag (fromOutcome (toOutcome response)) "replayed"),
            some (.begin ⟨"k"⟩ (fingerprintOf charge genesis) 1,
              .begun (.replay (toOutcome response)))⟩, after) := by
  obtain ⟨process, created, next, hreached, hcreates, hrunning, hlength, -⟩ :=
    @creates_charge (fun _ => 2) 1 response hstatus hfits
  obtain ⟨hkey, hcreated, points, hrep, hstate⟩ := hcreates.stored hreached
  have hholds : next.Holds (fun _ => 2) genesis ⟨"k"⟩ _ := ⟨points, hrep, hstate⟩
  have hstays : ((fun _ => 2 : String → UInt64) "k").toNat % ((2 : ℕ+) : Nat) =
      next.router.shardForKey (fun _ => 2) "k" := by
    rw [Router.shardForKey, hlength]
    rfl
  obtain ⟨log, last, hrun, hlast⟩ := @Holds.run _ _ _ _ _ _ _ hholds [.restart 2]
    ⟨keeps_restart hstays, by split <;> trivial⟩
  have hlastRunning : last.running = true := running_of_restarts (by simp) hrunning hrun
  obtain ⟨after, hretry⟩ := @Holds.replays _ _ _ _ _ _ _ hlast hlastRunning hkey 1 (by decide) .done
  exact ⟨process, created, next, hreached, hcreates, hcreated,
    ⟨spares_restart hstays, by split <;> trivial⟩, log, last, hrun, _, after, hretry⟩

/-- The charge has one header of each name. -/
theorem replay_fidelity_charge :
    ∃ process created next, Reached (fun _ => 2) genesis process ∧
      Creates (fun _ => 2) genesis process charge ⟨"k"⟩
        ⟨200, [("Content-Type", "text/plain"), ("Age", "0")], [2]⟩ 0 created next ∧
      ∃ log last entered after,
        runSteps (step (fun _ => 2) genesis) next [.restart 2] = .ok (log, last) ∧
        last.step (fun _ => 2) genesis (.enter (.begin .done charge 1)) =
          .ok (some entered, after) ∧
        ∃ replayed : Response, entered.handled.reply = .answered (tag replayed "replayed") ∧
          replayed.status = 200 ∧ replayed.body = [2] ∧
          replayed.headers.Perm [("Content-Type", "text/plain"), ("Age", "0")] := by
  obtain ⟨process, created, next, hreached, hcreates, -, hspares, log, last, hrun, index, after,
    hretry⟩ := @charge_retried ⟨200, [("Content-Type", "text/plain"), ("Age", "0")], [2]⟩
      (by decide) (by decide +kernel)
  obtain ⟨-, _, _, hsame, hfaithful⟩ := replay_fidelity hreached hcreates (by decide) hspares
  cases hrun.symm.trans hsame
  exact ⟨process, created, next, hreached, hcreates, log, last, _, after, hrun, hretry,
    hfaithful _ _ _ _ _ hretry _ _ rfl⟩

/-- The backend sets two cookies, and the retry gets one of them. -/
theorem repeated_header_lost :
    ∃ process created next, Reached (fun _ => 2) genesis process ∧
      Creates (fun _ => 2) genesis process charge ⟨"k"⟩
        ⟨200, [("Set-Cookie", "a=1"), ("Set-Cookie", "b=2")], [2]⟩ 0 created next ∧
      created.handled.reply = .answered
        (tag ⟨200, [("Set-Cookie", "a=1"), ("Set-Cookie", "b=2")], [2]⟩ "created") ∧
      ∃ log last entered after,
        runSteps (step (fun _ => 2) genesis) next [.restart 2] = .ok (log, last) ∧
        last.step (fun _ => 2) genesis (.enter (.begin .done charge 1)) =
          .ok (some entered, after) ∧
        entered.handled.reply =
          .answered (tag ⟨200, [("Set-Cookie", "b=2")], [2]⟩ "replayed") := by
  obtain ⟨process, created, next, hreached, hcreates, hcreated, -, log, last, hrun, index, after,
    hretry⟩ := @charge_retried ⟨200, [("Set-Cookie", "a=1"), ("Set-Cookie", "b=2")], [2]⟩
      (by decide) (by decide +kernel)
  have hlost : fromOutcome (toOutcome ⟨200, [("Set-Cookie", "a=1"), ("Set-Cookie", "b=2")], [2]⟩) =
      ⟨200, [("Set-Cookie", "b=2")], [2]⟩ := by decide +kernel
  rw [hlost] at hretry
  exact ⟨process, created, next, hreached, hcreates, hcreated, log, last, _, after, hrun, hretry,
    rfl⟩

end Fidelity

end Process

end Onced
