import Onced.Gateway.Pool

/-! # One request at a time

A router that handles one request after the other, and the pool that runs the sections of
many side by side, are two readings of the same code. A request comes to the same in both
if no other section is run between its own.
-/

namespace Onced

open Foundation Abuse Relation

section Alone

variable {σ β : Type} [Store σ] {hash : String → UInt64} {router next : Router σ}
  {request : Request} {nowMs : UInt64}

/-- A section of a request, on the router that the one before has left. -/
def Job.Goes (hash : String → UInt64) (request : Request) (nowMs : UInt64)
    (one other : Stage × Router σ) : Prop :=
  Job.proceed hash ⟨request, nowMs, one.1⟩ one.2 = .ok other

omit [Store σ] in
/-- A section of the request that came in last. -/
theorem Pool.run_last {body : Job → Router σ → Except Panic (Stage × Router σ)} {job : Job}
    {after : Stage} (hbody : body job router = .ok (after, next)) (jobs : List Job) :
    Pool.run jobs.length body ⟨router, jobs ++ [job]⟩ = .ok (job.notice jobs.length after,
      ⟨next, jobs ++ [{ job with stage := after }]⟩) := by
  simp [run, hbody, Except.map]

theorem Pool.runs_of_goes {one other : Stage × Router σ}
    (hgoes : ReflTransGen (Job.Goes hash request nowMs) one other) (jobs : List Job) :
    ∃ count log, runSteps (step hash) ⟨one.2, jobs ++ [⟨request, nowMs, one.1⟩]⟩
      (List.replicate count (.proceed jobs.length)) =
        .ok (log, ⟨other.2, jobs ++ [⟨request, nowMs, other.1⟩]⟩) := by
  induction hgoes using Relation.ReflTransGen.head_induction_on with
  | refl => exact ⟨0, [], rfl⟩
  | @head one middle hfirst _ ih =>
      obtain ⟨count, log, hrest⟩ := ih
      have hstep : step hash ⟨one.2, jobs ++ [⟨request, nowMs, one.1⟩]⟩ (.proceed jobs.length) =
          .ok (Job.notice jobs.length ⟨request, nowMs, one.1⟩ middle.1,
            ⟨middle.2, jobs ++ [⟨request, nowMs, middle.1⟩]⟩) := run_last hfirst jobs
      refine ⟨count + 1, Job.notice jobs.length ⟨request, nowMs, one.1⟩ middle.1 :: log, ?_⟩
      rw [List.replicate_succ, runSteps_cons_ok hstep, hrest]
      rfl

/-- A scrape adds up the counters of the shards that are left. -/
theorem Job.goes_scraping (front rest : List (Shard σ)) (hshards : router.shards = front ++ rest)
    (total : Metrics) :
    let sum := rest.foldl (fun total shard => total.merge shard.gateway.metrics) total
    ReflTransGen (Job.Goes hash request nowMs) (.scraping total front.length, router)
      (.answered (metricsResponse { sum with denied := sum.denied + router.denied }) false,
        router) := by
  induction rest generalizing front total with
  | nil =>
      refine .single ?_
      simp [Goes, proceed, hshards]
  | cons shard rest ih =>
      have hshard : router.shards[front.length]? = some shard := by simp [hshards]
      refine .head (b := (.scraping (total.merge shard.gateway.metrics) (front.length + 1), router))
        (by simp only [Goes, proceed, hshard]) ?_
      have hlength : (front ++ [shard]).length = front.length + 1 := by simp
      rw [← hlength]
      exact ih (front ++ [shard]) (by simp [hshards]) _

variable {upstream : Upstream β} {state last : β} {served : Served}

/-- The operational endpoints are answered from the router as it is. -/
theorem Job.goes_operational {response : Response}
    (hoperational : router.operationalResponse request = some response) :
    ReflTransGen (Job.Goes hash request nowMs) (.received, router)
      (.answered response false, router) := by
  unfold Router.operationalResponse at hoperational
  split at hoperational
  next hhealth =>
    cases hoperational
    refine .single ?_
    simp only [Goes, proceed, if_pos hhealth]
  next hhealth =>
    split at hoperational
    next hmetrics =>
      cases hoperational
      refine .head (b := (.scraping {} 0, router)) ?_ (goes_scraping [] router.shards rfl {})
      simp only [Goes, proceed, if_neg hhealth, if_pos hmetrics]
    next => cases hoperational

/-- Where the abuse stage leads. -/
theorem Job.goes_denied (hoperational : router.operationalResponse request = none)
    {denied : Option Response}
    (hdeny : router.denyIfAbusive hash request nowMs = .ok (denied, next)) :
    Job.Goes hash request nowMs (.received, router)
      (denied.elim .admitted fun response => .answered response false, next) := by
  unfold Router.operationalResponse at hoperational
  split at hoperational
  next => cases hoperational
  next hhealth =>
    split at hoperational
    next => cases hoperational
    next hmetrics =>
      simp only [Goes, proceed, if_neg hhealth, if_neg hmetrics, hdeny]
      rfl

/-- The two phases on a shard. -/
theorem Job.goes_handleOn {index : Nat}
    (hhandle : router.handleOn index upstream request nowMs state = .ok (served, next, last)) :
    ∃ stage middle, Job.Goes hash request nowMs (.routed index, router) (stage, middle) ∧
      Job.complete (upstream state request).1 ⟨request, nowMs, stage⟩ middle =
        .ok (.answered served.response served.forwarded.isSome, next) := by
  unfold Router.handleOn at hhandle
  cases hbegin : router.onShard index (Gateway.beginPhase .done request nowMs) with
  | error panic =>
      rw [hbegin] at hhandle
      cases hhandle
  | ok result =>
      obtain ⟨begun, middle⟩ := result
      rw [hbegin] at hhandle
      refine ⟨begun.leads index, middle, by simp only [Goes, proceed, hbegin]; rfl, ?_⟩
      cases begun with
      | done response =>
          cases hhandle
          rfl
      | forward ticket =>
          cases hcomplete : middle.onShard index
              (Gateway.completePhase .done ticket (upstream state request).1 nowMs) with
          | error panic =>
              simp only [bind, Except.bind, hcomplete] at hhandle
              cases hhandle
          | ok result =>
              simp only [bind, Except.bind, hcomplete] at hhandle
              cases hhandle
              simp only [complete, BeginPhase.leads, hcomplete]
              rfl

theorem Job.goes_handle
    (hhandle : router.handle hash upstream request nowMs state = .ok (served, next, last)) :
    ∃ stage middle, ReflTransGen (Job.Goes hash request nowMs) (.received, router) (stage, middle) ∧
      Job.complete (upstream state request).1 ⟨request, nowMs, stage⟩ middle =
        .ok (.answered served.response served.forwarded.isSome, next) := by
  unfold Router.handle at hhandle
  split at hhandle
  next response hoperational =>
    cases hhandle
    exact ⟨_, _, goes_operational hoperational, rfl⟩
  next hoperational =>
    cases hdeny : router.denyIfAbusive hash request nowMs with
    | error panic =>
        rw [hdeny] at hhandle
        cases hhandle
    | ok result =>
        obtain ⟨denied, judged⟩ := result
        rw [hdeny] at hhandle
        have hfirst := goes_denied hoperational hdeny
        cases denied with
        | some response =>
            cases hhandle
            exact ⟨_, _, .single hfirst, rfl⟩
        | none =>
            obtain ⟨stage, middle, hlast, hcomplete⟩ := goes_handleOn hhandle
            have hroute : Job.Goes hash request nowMs (.admitted, judged)
                (.routed (judged.routeShard hash request).1,
                  (judged.routeShard hash request).2) := rfl
            exact ⟨stage, middle, .head hfirst (.head hroute (.single hlast)), hcomplete⟩

end Alone

/-- A request comes to what the router makes of it when it handles one request after the other, if
its sections are run on end. -/
theorem Pool.alone_as_handled {σ β : Type} [Store σ] {hash : String → UInt64}
    {upstream : Upstream β} {request : Request} {nowMs : UInt64} {router next : Router σ}
    {state last : β} {served : Served}
    (hhandle : router.handle hash upstream request nowMs state = .ok (served, next, last))
    (jobs : List Job) :
    ∃ count log, runSteps (step hash) ⟨router, jobs⟩ (.arrive request nowMs ::
        (List.replicate count (.proceed jobs.length) ++
          [.returned jobs.length (upstream state request).1])) =
      .ok (log, ⟨next, jobs ++ [⟨request, nowMs,
        .answered served.response served.forwarded.isSome⟩]⟩) := by
  obtain ⟨stage, middle, hgoes, hcomplete⟩ := Job.goes_handle hhandle
  obtain ⟨count, log, hproceeds⟩ := runs_of_goes hgoes jobs
  have harrive : step hash ⟨router, jobs⟩ (.arrive request nowMs) =
      .ok (some (.accepted jobs.length), ⟨router, jobs ++ [⟨request, nowMs, .received⟩]⟩) := rfl
  obtain ⟨notice, hreturn⟩ : ∃ notice, runSteps (step hash)
      ⟨middle, jobs ++ [⟨request, nowMs, stage⟩]⟩
      [.returned jobs.length (upstream state request).1] =
        .ok ([notice], ⟨next, jobs ++ [⟨request, nowMs,
          .answered served.response served.forwarded.isSome⟩]⟩) :=
    ⟨_, runSteps_cons_ok (run_last hcomplete jobs) []⟩
  refine ⟨count, some (.accepted jobs.length) :: (log ++ [notice]), ?_⟩
  rw [runSteps_cons_ok harrive, runSteps_append hproceeds hreturn]
  rfl

/-- A charge that is handled and one whose sections are run on the same router. -/
theorem Pool.alone_as_handled_charge :
    ∃ router served next, Router.new (Router.desks 1) [burst] = .ok router ∧
      router.handle (fun _ => 7) counting charge 0 0 = .ok (served, next, 1) ∧
      ∃ count log, runSteps (step fun _ => 7) ⟨router, []⟩ (.arrive charge 0 ::
          (List.replicate count (.proceed 0) ++ [.returned 0 (.ok ⟨200, [], []⟩)])) =
        .ok (log, ⟨next, [⟨charge, 0, .answered served.response true⟩]⟩) := by
  obtain ⟨router, hnew⟩ : ∃ router, Router.new (Router.desks 1) [burst] = .ok router := ⟨_, rfl⟩
  have hserved : (router.handle (fun _ => 7) counting charge 0 0).toOption.map
      (fun handled => (handled.1.forwarded.isSome, handled.2.2)) = some (true, 1) := by
    cases hnew
    decide +kernel
  cases hhandle : router.handle (fun _ => 7) counting charge 0 0 with
  | error panic =>
      rw [hhandle] at hserved
      cases hserved
  | ok handled =>
      obtain ⟨served, next, last⟩ := handled
      rw [hhandle] at hserved
      obtain ⟨hforwarded, rfl⟩ := Prod.mk.inj (Option.some.inj hserved)
      obtain ⟨count, log, hrun⟩ := alone_as_handled hhandle []
      change served.forwarded.isSome = true at hforwarded
      rw [hforwarded] at hrun
      exact ⟨router, served, next, hnew, hhandle, count, log, hrun⟩

end Onced
