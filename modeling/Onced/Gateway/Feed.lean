import Onced.Gateway.Pool

/-! # Transports over a pool

A transport reads what comes in, feeds it to the pool, and says in its own terms what it
hears of it. What it hears of a request is told by the request's stage alone, so whatever
the order of the sections, each request is accepted once, calls the backend once at most,
and is answered once at most.
-/

namespace Onced

open Foundation Abuse

/-! ## What the transport hears -/

/-- The request that is spoken of. -/
def Notice.id : Notice → Nat
  | .accepted id => id
  | .called id _ => id
  | .answered id _ => id

/-- What the transport has heard of a request: that it was accepted, that the backend was to be
called, if it was, and the response, if there is one. -/
def Job.told (id : Nat) (job : Job) : List Notice :=
  .accepted id :: match job.stage with
    | .forwarding .. => [.called id job.request]
    | .answered response true => [.called id job.request, .answered id response]
    | .answered response false => [.answered id response]
    | _ => []

def Pool.told {σ : Type} (id : Nat) (pool : Pool σ) : List Notice :=
  (pool.jobs[id]?).elim [] (Job.told id)

namespace Job

variable {σ : Type} [Store σ] {hash : String → UInt64} {router : Router σ}
  {back : Option (Except String Response)} {job : Job} {after : Stage} {index : Nat}
  {call : Option EngineCall}

theorem told_answered {response : Response} {called : Bool}
    (hstage : job.stage = .answered response called) (id : Nat) :
    .answered id response ∈ job.told id := by
  cases called <;> simp [told, hstage]

theorem notice_id {id : Nat} {heard : Notice} (hheard : job.notice id after = some heard) :
    heard.id = id := by
  unfold notice at hheard
  split at hheard <;> cases hheard <;> rfl

omit [Store σ] in
theorem Aside.told (haside : job.Aside hash router back after) (id : Nat) :
    job.told id ++ (job.notice id after).toList = told id { job with stage := after } := by
  obtain ⟨request, nowMs, stage⟩ := job
  cases haside with
  | stays => cases stage <;> simp [notice]
  | health hstage =>
      cases hstage
      rfl
  | scrapes hstage =>
      cases hstage
      rfl
  | adds more hstage =>
      cases hstage
      rfl
  | scraped metrics hstage =>
      cases hstage
      rfl
  | denies rule action hstage =>
      cases hstage
      rfl
  | admits hstage =>
      cases hstage
      rfl
  | routes hstage =>
      cases hstage
      rfl

/-- Every section tells what has changed. -/
theorem Section.told (hsection : job.Section hash router back after index call) (id : Nat) :
    job.told id ++ (job.notice id after).toList = Job.told id { job with stage := after } := by
  cases hsection with
  | aside _ haside => exact haside.told id
  | passes hstage =>
      obtain ⟨request, nowMs, stage⟩ := job
      cases hstage
      rfl
  | @decides _ shard key decision hstage =>
      obtain ⟨request, nowMs, stage⟩ := job
      cases hstage
      cases decision <;> rfl
  | finishes hstage =>
      obtain ⟨request, nowMs, stage⟩ := job
      cases hstage
      rfl

end Job

namespace Pool

variable {σ : Type} [Store σ] {hash : String → UInt64} {pool next last : Pool σ}

/-- What is heard of one request. -/
def heard (id : Nat) (notice : Option Notice) : List Notice :=
  notice.toList.filter fun notice => notice.id = id

/-- Every step tells what has changed, of the one request it changes. -/
theorem Moves.told {event : Event} {notice : Option Notice}
    (hmoves : pool.Moves hash event notice next) (id : Nat) :
    pool.told id ++ heard id notice = next.told id := by
  cases hmoves with
  | arrives request nowMs =>
      rcases Nat.lt_trichotomy id pool.jobs.length with hold | rfl | hbeyond
      · simp [Pool.told, heard, Notice.id, List.getElem?_append_left hold, Nat.ne_of_gt hold]
      · simp [Pool.told, heard, Notice.id, Job.told]
      · have hnone : pool.jobs[id]? = none := List.getElem?_eq_none (by omega)
        have hlength : (pool.jobs ++ [⟨request, nowMs, .received⟩])[id]? = none :=
          List.getElem?_eq_none (by simp; omega)
        simp [Pool.told, heard, Notice.id, hnone, hlength, Nat.ne_of_lt hbeyond]
  | @runs _ own back job after index call router htarget hjob hsection hcarries =>
      have hheard : heard id (job.notice own after) =
          if own = id then (job.notice own after).toList else [] := by
        cases hnotice : job.notice own after with
        | none => simp [heard]
        | some notice => simp [heard, List.filter_cons, Job.notice_id hnotice]
      rw [hheard]
      by_cases hid : own = id
      · subst hid
        simp only [Pool.told, hjob, if_pos,
          List.getElem?_set_self (List.getElem?_eq_some_iff.mp hjob).1]
        exact hsection.told own
      · simp [Pool.told, if_neg hid, List.getElem?_set_ne hid]
  | prunes => simp [heard, Pool.told]
  | misses => simp [heard]
  | outside => simp [heard]

/-! ## Transports -/

section Transports

variable {ε ω : Type} (hash : String → UInt64) (closed : ω) (shows : Notice → ω)

/-- A transport hands on what it has read, closes a connection on which there is nothing to
read, and puts what it hears into its own terms. -/
def feed (reading : Except Panic (Option Event)) (pool : Pool σ) :
    Except Panic (Option ω × Pool σ) :=
  match reading with
  | .error panic => .error panic
  | .ok none => .ok (some closed, pool)
  | .ok (some event) => (pool.step hash event).map fun (notice, next) => (notice.map shows, next)

/-- A transport only says that it closes a connection, or what it hears. -/
theorem feed_output {reading : Except Panic (Option Event)} {output : Option ω}
    (hfeed : pool.feed hash closed shows reading = .ok (output, next)) :
    output = some closed ∨ ∃ notice : Option Notice, output = notice.map shows := by
  unfold feed at hfeed
  split at hfeed
  next => cases hfeed
  next =>
    cases hfeed
    exact Or.inl rfl
  next event =>
    cases hstep : pool.step hash event with
    | error panic =>
        rw [hstep] at hfeed
        cases hfeed
    | ok result =>
        rw [hstep] at hfeed
        cases hfeed
        exact Or.inr ⟨result.1, rfl⟩

/-- What a step of a transport does, given how it reads. -/
inductive Fed (read : Pool σ → ε → Except Panic (Option Event)) (pool : Pool σ) :
    ε → Option ω → Pool σ → Prop where
  | closes {arrival : ε} (hread : read pool arrival = .ok none) :
      Fed read pool arrival (some closed) pool
  | feeds {arrival : ε} {event : Event} {notice : Option Notice} {next : Pool σ}
      (hread : read pool arrival = .ok (some event))
      (hmoves : pool.Moves hash event notice next) :
      Fed read pool arrival (notice.map shows) next

variable {hash closed shows} {read : Pool σ → ε → Except Panic (Option Event)}
  {arrivals : List ε} {outputs : List (Option ω)}

theorem Fed.proper {arrival : ε} {output : Option ω}
    (hfed : Fed hash closed shows read pool arrival output next) (hproper : pool.Proper hash) :
    next.Proper hash := by
  cases hfed with
  | closes => exact hproper
  | feeds _ hmoves => exact hmoves.proper hproper

/-- A transport stops only at what it cannot read. -/
theorem feed_fed [LawfulStore σ] (hproper : pool.Proper hash) {arrival : ε} {reading : Option Event}
    (hread : read pool arrival = .ok reading) :
    ∃ output next, pool.feed hash closed shows (read pool arrival) = .ok (output, next) ∧
      Fed hash closed shows read pool arrival output next := by
  cases reading with
  | none => exact ⟨_, _, by rw [hread]; rfl, .closes hread⟩
  | some event =>
      obtain ⟨notice, next, hstep, hmoves, -⟩ := step_moves hproper event
      refine ⟨_, _, ?_, .feeds hread hmoves⟩
      simp only [feed, hread, hstep]
      rfl

theorem feed_path [LawfulStore σ] {machine : Pool σ → ε → Except Panic (Option ω × Pool σ)}
    (hmachine : ∀ pool arrival, machine pool arrival =
      pool.feed hash closed shows (read pool arrival))
    (hproper : pool.Proper hash) (hrun : runSteps machine pool arrivals = .ok (outputs, last)) :
    Path (Fed hash closed shows read) pool arrivals outputs last ∧ last.Proper hash := by
  apply path_of_runSteps (Proper hash) _ hproper hrun
  intro pool arrival output next hproper hstep
  rw [hmachine] at hstep
  cases hread : read pool arrival with
  | error panic =>
      rw [hread] at hstep
      cases hstep
  | ok reading =>
      obtain ⟨_, _, hfeed, hfed⟩ := feed_fed hproper hread
      cases hstep.symm.trans hfeed
      exact ⟨hfed, hfed.proper hproper⟩

/-- Behind a run of a transport there is one of the pool, no longer, of what was read. -/
theorem path_of_fed (hpath : Path (Fed hash closed shows read) pool arrivals outputs last) :
    ∃ events log, Path (Moves hash) pool events log last ∧ events.length ≤ arrivals.length ∧
      ∀ event ∈ events, ∃ arrival ∈ arrivals, ∃ current,
        read current arrival = .ok (some event) := by
  induction hpath with
  | nil pool => exact ⟨[], [], .nil pool, Nat.le_refl _, fun _ hevent => absurd hevent
      List.not_mem_nil⟩
  | @cons pool next last arrival arrivals output outputs first rest ih =>
      obtain ⟨events, log, hpath, hlength, hread⟩ := ih
      have hrest : ∀ event ∈ events, ∃ origin ∈ arrival :: arrivals, ∃ current,
          read current origin = .ok (some event) := by
        intro event hevent
        obtain ⟨origin, horigin, hcurrent⟩ := hread event hevent
        exact ⟨origin, List.mem_cons_of_mem _ horigin, hcurrent⟩
      cases first with
      | closes => exact ⟨events, log, hpath, Nat.le_succ_of_le hlength, hrest⟩
      | @feeds event notice _ hfirst hmoves =>
          refine ⟨event :: events, notice :: log, .cons hmoves hpath, Nat.succ_le_succ hlength, ?_⟩
          intro other hother
          rcases List.mem_cons.mp hother with rfl | hlater
          · exact ⟨arrival, List.mem_cons_self, pool, hfirst⟩
          · exact hrest other hlater

section Progress

variable [LawfulStore σ] {machine : Pool σ → ε → Except Panic (Option ω × Pool σ)}
  (hmachine : ∀ pool arrival, machine pool arrival =
    pool.feed hash closed shows (read pool arrival)) {id : Nat} {job : Job}

include hmachine

/-- A section of one request. -/
theorem feed_section {arrival : ε} {event : Event} {back : Option (Except String Response)}
    (hread : read pool arrival = .ok (some event)) (htarget : event.target = some (id, back))
    (hproper : pool.Proper hash) (hjob : pool.jobs[id]? = some job) :
    ∃ output next after index call, machine pool arrival = .ok (output, next) ∧
      next.Proper hash ∧ next.router.shards.length = pool.router.shards.length ∧
      next.jobs = pool.jobs.set id { job with stage := after } ∧
      job.Section hash pool.router back after index call := by
  obtain ⟨output, next, hfeed, hfed⟩ := feed_fed hproper hread
  rw [← hmachine] at hfeed
  refine ⟨output, next, ?_⟩
  cases hfed with
  | closes hclosed => cases hclosed.symm.trans hread
  | feeds hsame hmoves =>
      cases hsame.symm.trans hread
      have hnext := hmoves.proper hproper
      cases hmoves with
      | arrives => cases htarget
      | @runs _ own _ other after index call router hown hother hsection hcarries =>
          cases hown.symm.trans htarget
          cases hother.symm.trans hjob
          exact ⟨after, index, call, hfeed, hnext, hcarries.length, rfl, hsection⟩
      | prunes => cases htarget
      | misses hown hnone =>
          cases hown.symm.trans htarget
          cases hnone.symm.trans hjob
      | outside => cases htarget

/-- By its own sections a request comes to be answered or to wait. -/
theorem feed_settles {go : ε} (hgo : ∀ pool, read pool go = .ok (some (.proceed id)))
    (hproper : pool.Proper hash) (hjob : pool.jobs[id]? = some job) :
    ∃ count outputs last after, runSteps machine pool (List.replicate count go) =
        .ok (outputs, last) ∧ last.Proper hash ∧
      last.jobs[id]? = some { job with stage := after } ∧ after.Settled := by
  induction hleft : job.stage.left pool.router.shards.length using Nat.strong_induction_on
    generalizing pool job with
  | _ left ih =>
      by_cases hsettled : job.stage.Settled
      · exact ⟨0, [], pool, job.stage, rfl, hproper, hjob, hsettled⟩
      · obtain ⟨output, next, after, index, call, hstep, hnext, hlength, hjobs, hsection⟩ :=
          feed_section hmachine (hgo pool) rfl hproper hjob
        have hafter : next.jobs[id]? = some { job with stage := after } := by
          rw [hjobs, List.getElem?_set_self (List.getElem?_eq_some_iff.mp hjob).1]
        have hless := hsection.left hsettled
        rw [hleft, ← hlength] at hless
        obtain ⟨count, outputs, last, later, hrun, hlast, hlater, hends⟩ :=
          ih _ hless hnext hafter rfl
        refine ⟨count + 1, output :: outputs, last, later, ?_, hlast, hlater, hends⟩
        rw [List.replicate_succ, runSteps_cons_ok hstep, hrun]
        rfl

/-- By its own sections and the backend's answer a request comes to be answered. -/
theorem feed_ends {go back : ε} (hgo : ∀ pool, read pool go = .ok (some (.proceed id)))
    (hback : ∀ pool, ∃ forwarded, read pool back = .ok (some (.returned id forwarded)))
    (hproper : pool.Proper hash) (hjob : pool.jobs[id]? = some job) :
    ∃ count outputs last response called,
      runSteps machine pool (List.replicate count go ++ [back]) = .ok (outputs, last) ∧
      last.jobs[id]? = some { job with stage := .answered response called } := by
  obtain ⟨count, outputs, middle, stage, hrun, hmiddle, hstage, hsettled⟩ :=
    feed_settles hmachine hgo hproper hjob
  obtain ⟨forwarded, hreturned⟩ := hback middle
  obtain ⟨output, last, after, index, call, hstep, -, -, hjobs, hsection⟩ :=
    feed_section hmachine hreturned rfl hmiddle hstage
  obtain ⟨response, called, rfl⟩ := hsection.ends hsettled
  refine ⟨count, outputs ++ [output], last, response, called, ?_, ?_⟩
  · apply runSteps_append hrun
    rw [runSteps_cons_ok hstep]
    rfl
  · rw [hjobs, List.getElem?_set_self (List.getElem?_eq_some_iff.mp hstage).1]

end Progress

/-- The outputs that are about one request. -/
def concerning (owner : ω → Option Nat) (id : Nat) (output : Option ω) : List ω :=
  output.toList.filter fun output => owner output = some id

/-- Over a run, the outputs about a request are what the transport has heard of it, each once and
in its order. -/
theorem outputs_of_fed {owner : ω → Option Nat} (hclosed : owner closed = none)
    (hshows : ∀ notice, owner (shows notice) = some notice.id) (id : Nat)
    (hpath : Path (Fed hash closed shows read) pool arrivals outputs last) :
    (pool.told id).map shows ++ outputs.flatMap (concerning owner id) =
      (last.told id).map shows := by
  change (fun pool : Pool σ => (pool.told id).map shows) pool ++ _ = _
  apply Path.collects _ hpath
  intro pool arrival output next hfed
  cases hfed with
  | closes => simp [concerning, hclosed]
  | @feeds event notice _ hread hmoves =>
      rw [← hmoves.told id, List.map_append]
      congr 1
      cases notice with
      | none => rfl
      | some notice =>
          simp only [concerning, heard, Option.map_some, Option.toList_some, List.filter_cons,
            List.filter_nil, hshows, Option.some.injEq]
          split <;> rfl

section Start

variable {owner : ω → Option Nat} (hclosed : owner closed = none)
  (hshows : ∀ notice, owner (shows notice) = some notice.id) {router : Router σ}
  (hpath : Path (Fed hash closed shows read) ⟨router, []⟩ arrivals outputs last)

include hclosed hshows hpath

/-- From the start on, the outputs about a request are all that is heard of it. -/
theorem outputs_eq_told (id : Nat) :
    outputs.flatMap (concerning owner id) = (last.told id).map shows := by
  rw [← outputs_of_fed hclosed hshows id hpath]
  rfl

theorem mem_outputs_iff {id : Nat} {job : Job} (hjob : last.jobs[id]? = some job) {output : ω}
    (howner : owner output = some id) :
    some output ∈ outputs ↔ ∃ notice ∈ job.told id, shows notice = output := by
  have htold : (last.told id).map shows = (job.told id).map shows := by rw [told, hjob]; rfl
  rw [← List.mem_map, ← htold, ← outputs_eq_told hclosed hshows hpath id, List.mem_flatMap]
  constructor
  · intro hmem
    exact ⟨some output, hmem, by simp [concerning, howner]⟩
  · rintro ⟨_ | other, hmem, hother⟩
    · cases hother
    · simp only [concerning, Option.toList_some, List.mem_filter, List.mem_singleton] at hother
      rw [hother.1]
      exact hmem

end Start

/-- Whatever is read, or nothing if the connection is closed; a request that is read is accepted. -/
def Greets (closed : ω) (shows : Notice → ω) (read : Pool σ → ε → Except Panic (Option Event))
    (last : Pool σ) (arrival : ε) (output : Option ω) : Prop :=
  ∃ current reading, read current arrival = .ok reading ∧
    (reading = none → output = some closed) ∧
    ∀ request nowMs, reading = some (.arrive request nowMs) → ∃ id stage,
      output = some (shows (.accepted id)) ∧ last.jobs[id]? = some ⟨request, nowMs, stage⟩

theorem greets_of_fed (hpath : Path (Fed hash closed shows read) pool arrivals outputs last) :
    List.Forall₂ (Greets closed shows read last) arrivals outputs := by
  induction hpath with
  | nil => exact .nil
  | @cons pool next last arrival arrivals output outputs first rest ih =>
      refine .cons ?_ ih
      cases first with
      | closes hread =>
          refine ⟨pool, none, hread, fun _ => rfl, ?_⟩
          intro request nowMs hsome
          cases hsome
      | @feeds event notice _ hread hmoves =>
          refine ⟨pool, some event, hread, (fun hnone => by cases hnone), ?_⟩
          intro request nowMs hevent
          cases hevent
          obtain ⟨_, _, hlater, -⟩ := path_of_fed rest
          cases hmoves with
          | arrives =>
              have hlength : (pool.jobs ++ [⟨request, nowMs, .received⟩])[pool.jobs.length]? =
                  some ⟨request, nowMs, .received⟩ := List.getElem?_concat_length
              obtain ⟨stage, hstage⟩ := job_of_path hlater hlength
              exact ⟨_, stage, rfl, hstage⟩
          | runs htarget => cases htarget
          | misses htarget => cases htarget

end Transports

end Pool

end Onced
