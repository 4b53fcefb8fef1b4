import Onced.Gateway.Replays

/-! # Properties that answers do not lose

An answer is one of the gateway's own, or one of the backend, as it came or as it was
stored and tagged. So a property that the gateway's own responses have holds of every
answer, if tagging gives it to plain responses, storing keeps them plain, and those of the
backend and those stored at the start are.
-/

namespace Onced

open Foundation Abuse

/-- What is replayed was among the headers before they were stored. -/
theorem headers_fromOutcome_subset (response : Response) :
    (fromOutcome (toOutcome response)).headers ⊆ response.headers := by
  intro header hheader
  have hstored := Std.ExtTreeMap.mem_toList_iff_getElem?_eq_some.mp hheader
  rcases mem_of_getElem?_insertAll hstored with hempty | hmem
  · simp at hempty
  · exact hmem

/-- A property of answers that they have if the responses of the backend are plain ones, with rules
of such names. -/
structure Preserved (plain good : Response → Prop) (named : String → Prop) : Prop where
  stored : ∀ response, plain response → plain (fromOutcome (toOutcome response))
  passed : ∀ response, plain response → good response
  created : ∀ response, plain response → good (tag response "created")
  replayed : ∀ response, plain response → good (tag response "replayed")
  badGateway : good badGateway
  inProgress : good (taggedStatus 409 "in-progress")
  mismatch : good (taggedStatus 422 "mismatch")
  healthOk : good healthOk
  metrics : ∀ metrics, good (metricsResponse metrics)
  denied : ∀ rule action, named rule → good (tooManyRequests rule action)

variable {σ : Type} {plain good : Response → Prop} {named : String → Prop}

/-- The record, if it is completed, has the outcome of a plain response. -/
def Sound (plain : Response → Prop) (record : Option KeyState) : Prop :=
  ∀ fingerprint outcome completedAtMs,
    record = some (.completed fingerprint outcome completedAtMs) → plain (fromOutcome outcome)

theorem Preserved.answer (hpreserved : Preserved plain good named) (ticket : ForwardTicket)
    {forwarded : Except String Response}
    (hforwarded : ∀ response, forwarded = .ok response → plain response) :
    good (ticket.answer forwarded).1 := by
  cases forwarded with
  | error failure => exact hpreserved.badGateway
  | ok response =>
      have hresponse := hforwarded response rfl
      unfold ForwardTicket.answer
      split
      next => contradiction
      next other hsame =>
        cases hsame
        split
        next => exact hpreserved.passed response hresponse
        next =>
          split
          next => exact hpreserved.passed response hresponse
          next => exact hpreserved.created response hresponse

namespace Router

variable [Store σ] {router next : Router σ} {index : Nat} {call : Option EngineCall}

/-- What is stored are plain responses, and the rules have such names. -/
structure Upholds (plain : Response → Prop) (named : String → Prop) (router : Router σ) :
    Prop where
  stored : ∀ shard ∈ router.shards, ∀ key, Sound plain (Store.get shard.gateway.engine.store key)
  named : ∀ name ∈ router.ruleNames.flatten, named name

/-- A section that stores a plain response, or none. -/
theorem Carries.upholds {router next : Router σ} (hcarries : router.Carries index call next)
    (hcall : ∀ token outcome nowMs, call = some (.complete token outcome nowMs) →
      plain (fromOutcome outcome)) (hupholds : router.Upholds plain named) :
    next.Upholds plain named := by
  refine ⟨?_, ?_⟩
  · intro after hafter key fingerprint outcome completedAtMs hrecord
    obtain ⟨place, hplace⟩ := List.getElem?_of_mem hafter
    obtain ⟨shard, hshard, hcarried⟩ := hcarries.before hplace
    have hold := hupholds.stored shard (List.mem_of_getElem? hshard) key fingerprint outcome
      completedAtMs
    rw [hcarried.states] at hrecord
    cases hmade : (if place = index then call else none) with
    | none =>
        rw [hmade] at hrecord
        exact hold hrecord
    | some made =>
        rw [hmade] at hrecord
        obtain ⟨-, rfl⟩ := Option.ite_none_right_eq_some.mp hmade
        rcases EngineCall.plan_effect_eq_some hrecord with hmakes | hkept
        · cases hmakes with
          | commits => exact hcall _ _ _ rfl
        · exact hold hkept
  · rw [hcarries.ruleNames]
    exact hupholds.named

/-- A new router over stores with plain responses. -/
theorem upholds_of_new {gateways : List (Gateway σ)} {abuse : List RuleSet}
    (hnew : Router.new gateways abuse = .ok router)
    (hstored : ∀ gateway ∈ gateways, ∀ key, Sound plain (Store.get gateway.engine.store key))
    (hrules : ∀ rules ∈ abuse, ∀ rule ∈ rules.rules, named rule.name) :
    router.Upholds plain named := by
  obtain ⟨-, -, rfl⟩ := new_eq_ok hnew
  constructor
  · intro shard hshard
    obtain ⟨gateway, hgateway, rfl⟩ := List.mem_map.mp hshard
    exact hstored gateway hgateway
  · intro name hname
    obtain ⟨names, hnames, hmem⟩ := List.mem_flatten.mp hname
    obtain ⟨rules, hset, rfl⟩ := List.mem_map.mp hnames
    obtain ⟨rule, hrule, rfl⟩ := List.mem_map.mp hmem
    exact hrules rules hset rule hrule

end Router

/-- The response, if there is one, is good. -/
def Stage.Good (good : Response → Prop) (stage : Stage) : Prop :=
  ∀ response called, stage = .answered response called → good response

namespace Job

variable [Store σ] {hash : String → UInt64} {router : Router σ}
  {back : Option (Except String Response)} {job : Job} {after : Stage} {index : Nat}
  {call : Option EngineCall}

/-- What a section answers is good if what is stored and what is back from the backend is plain. -/
theorem Section.answers_good (hpreserved : Preserved plain good named)
    (hupholds : router.Upholds plain named)
    (hback : ∀ response, back = some (.ok response) → plain response)
    (hsection : job.Section hash router back after index call) (hjob : job.stage.Good good) :
    after.Good good := by
  intro response called hafter
  cases hsection with
  | aside _ haside =>
      cases haside with
      | stays => exact hjob response called hafter
      | health =>
          cases hafter
          exact hpreserved.healthOk
      | scrapes => cases hafter
      | adds => cases hafter
      | scraped metrics =>
          cases hafter
          exact hpreserved.metrics metrics
      | denies rule action _ hrule =>
          cases hafter
          exact hpreserved.denied rule action (hupholds.named rule hrule)
      | admits => cases hafter
      | routes => cases hafter
  | passes => cases hafter
  | @decides _ shard key decision hstage hshard hkey hanswer =>
      cases decision with
      | run => cases hafter
      | replay outcome =>
          cases hafter
          obtain ⟨completedAtMs, hrecord⟩ := EngineCall.plan_begin_replay hanswer
          exact hpreserved.replayed _ (hupholds.stored shard (List.mem_of_getElem? hshard) _ _ _ _
            hrecord)
      | inProgress =>
          cases hafter
          exact hpreserved.inProgress
      | mismatch =>
          cases hafter
          exact hpreserved.mismatch
  | @finishes _ ticket forwarded hstage hforwarded =>
      cases hafter
      apply hpreserved.answer ticket
      rintro response rfl
      exact hback response hforwarded

/-- What a section stores is plain if what is back from the backend is. -/
theorem Section.stores_plain (hpreserved : Preserved plain good named)
    (hback : ∀ response, back = some (.ok response) → plain response)
    (hsection : job.Section hash router back after index call) {token : RunToken}
    {outcome : CachedOutcome} {nowMs : UInt64}
    (hcall : call = some (.complete token outcome nowMs)) : plain (fromOutcome outcome) := by
  cases hsection with
  | aside => cases hcall
  | passes => cases hcall
  | decides => cases hcall
  | @finishes _ ticket forwarded hstage hforwarded =>
      obtain ⟨⟨held, own⟩, hcommit, hmade⟩ := Option.map_eq_some_iff.mp hcall
      obtain ⟨-, rfl, -⟩ := ForwardTicket.commit_eq_some hcommit
      cases hmade
      exact hpreserved.stored own (hback own hforwarded)

end Job

namespace Pool

variable [Store σ] {hash : String → UInt64} {pool next : Pool σ} {event : Event}
  {notice : Option Notice}

/-- What is stored is plain, and what has been answered is good. -/
structure Upholds (plain good : Response → Prop) (named : String → Prop) (pool : Pool σ) :
    Prop where
  router : pool.router.Upholds plain named
  jobs : ∀ job ∈ pool.jobs, job.stage.Good good

/-- The backend's answer, if the event is one, is plain. -/
def Event.Plain (plain : Response → Prop) (event : Event) : Prop :=
  ∀ id response, event = .returned id (.ok response) → plain response

theorem Event.Plain.back (hevent : event.Plain plain) {id : Nat}
    {back : Option (Except String Response)} (htarget : event.target = some (id, back)) :
    ∀ response, back = some (.ok response) → plain response := by
  rintro response rfl
  cases event with
  | arrive => cases htarget
  | proceed => cases htarget
  | returned =>
      cases htarget
      exact hevent id response rfl
  | prune => cases htarget

/-- As long as the backend's answers are plain, all answers are good. -/
theorem Moves.upholds (hpreserved : Preserved plain good named)
    (hmoves : pool.Moves hash event notice next) (hevent : event.Plain plain)
    (hupholds : pool.Upholds plain good named) : next.Upholds plain good named := by
  cases hmoves with
  | arrives request nowMs =>
      refine ⟨hupholds.router, ?_⟩
      intro job hjob
      rcases List.mem_append.mp hjob with hold | hnew
      · exact hupholds.jobs job hold
      · rw [List.mem_singleton.mp hnew]
        intro response called hstage
        cases hstage
  | @runs _ id back job after index call router htarget hjob hsection hcarries =>
      have hback := hevent.back htarget
      refine ⟨hcarries.upholds (fun token outcome nowMs hcall =>
        hsection.stores_plain hpreserved hback hcall) hupholds.router, ?_⟩
      intro other hother
      rcases List.mem_or_eq_of_mem_set hother with hold | rfl
      · exact hupholds.jobs other hold
      · exact hsection.answers_good hpreserved hupholds.router hback
          (hupholds.jobs job (List.mem_of_getElem? hjob))
  | prunes hcarries =>
      refine ⟨hcarries.upholds (fun token outcome nowMs hcall => by cases hcall) hupholds.router,
        hupholds.jobs⟩
  | misses => exact hupholds
  | outside => exact hupholds

/-- Whatever is stored, what the backend was called for is answered with good responses. -/
def Answers (good : Response → Prop) (pool : Pool σ) : Prop :=
  ∀ job ∈ pool.jobs, ∀ response, job.stage = .answered response true → good response

theorem Moves.answers (hpreserved : Preserved plain good named)
    (hmoves : pool.Moves hash event notice next) (hevent : event.Plain plain)
    (hanswers : pool.Answers good) : next.Answers good := by
  cases hmoves with
  | arrives request nowMs =>
      intro job hjob response hstage
      rcases List.mem_append.mp hjob with hold | hnew
      · exact hanswers job hold response hstage
      · rw [List.mem_singleton.mp hnew] at hstage
        cases hstage
  | @runs _ id back job after index call router htarget hjob hsection hcarries =>
      intro other hother response hstage
      rcases List.mem_or_eq_of_mem_set hother with hold | rfl
      · exact hanswers other hold response hstage
      · obtain ⟨hsame, -⟩ | ⟨ticket, forwarded, -, hback, rfl, -⟩ := hsection.serves hstage
        · exact hanswers job (List.mem_of_getElem? hjob) response (hsame.trans hstage)
        · apply hpreserved.answer ticket
          rintro own rfl
          exact hevent.back htarget own hback
  | prunes => exact hanswers
  | misses => exact hanswers
  | outside => exact hanswers

/-! ## Transports that read plain responses -/

section Transports

variable {ε ω : Type} {closed : ω} {shows : Notice → ω}
  {read : Pool σ → ε → Except Panic (Option Event)} {arrivals : List ε}
  {outputs : List (Option ω)} {last : Pool σ} (hpreserved : Preserved plain good named)
  (hplain : ∀ arrival ∈ arrivals, ∀ current event, read current arrival = .ok (some event) →
    event.Plain plain)

include hpreserved hplain

theorem upholds_of_fed (hpath : Path (Fed hash closed shows read) pool arrivals outputs last)
    (hupholds : pool.Upholds plain good named) : last.Upholds plain good named := by
  obtain ⟨events, _, hmoves, -, hread⟩ := path_of_fed hpath
  apply hmoves.invariant _ _ hupholds
  intro event hevent notice _ pool next hpool hmove
  obtain ⟨arrival, harrival, current, hfrom⟩ := hread event hevent
  exact hmove.upholds hpreserved (hplain arrival harrival current event hfrom) hpool

end Transports

end Pool

end Onced
