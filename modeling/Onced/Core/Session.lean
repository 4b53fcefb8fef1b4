import Onced.Core.Engine
import Onced.Foundation.Trace

/-! # Sessions: workers and the tokens they hold

A worker completes a key with a token it was handed, and a token outlives the
process that handed it out. A session keeps every token in the order of issue,
and a completion names the token it presents by its place in that order. Two
tokens with the same fence are equal as values but not as places.
-/

namespace Onced

open Foundation

/-- A run token as it was handed out, and the fingerprint of its request. -/
structure Issue where
  token : RunToken
  fingerprint : RequestFingerprint
  deriving DecidableEq

/-- What clients, workers and the background ask of an engine. -/
inductive Operation where
  | begin (key : IdempotencyKey) (fingerprint : RequestFingerprint) (nowMs : UInt64)
  /-- Present the token issued in place `ticket`. -/
  | complete (ticket : Nat) (outcome : CachedOutcome) (nowMs : UInt64)
  | flush
  | pruneExpired (iteration : Iteration) (nowMs : UInt64)

namespace Operation

/-- The engine call, unless no such token was issued. -/
def call (issued : List Issue) : Operation → Option EngineCall
  | .begin key fingerprint nowMs => some (.begin key fingerprint nowMs)
  | .complete ticket outcome nowMs =>
      issued[ticket]?.map fun issue => .complete issue.token outcome nowMs
  | .flush => some .flush
  | .pruneExpired iteration nowMs => some (.pruneExpired iteration nowMs)

/-- The token an answer hands out. -/
def issue : Operation → Option Answer → Option Issue
  | .begin _ fingerprint _, some (.begun (.run token)) => some ⟨token, fingerprint⟩
  | _, _ => none

/-- The completion an answer accepts. -/
def acceptance : Operation → Option Answer → Option (Nat × CachedOutcome)
  | .complete ticket outcome _, some (.completed (.ok _)) => some (ticket, outcome)
  | _, _ => none

end Operation

/-- An operation, with what becomes of its I/O, or the process dying. -/
inductive SessionEvent where
  | op (io : Io) (operation : Operation)
  | crash

namespace SessionEvent

def event (issued : List Issue) : SessionEvent → Option Event
  | .op io operation => (operation.call issued).map (Event.call io)
  | .crash => some .crash

def issue (answer : Option Answer) : SessionEvent → Option Issue
  | .op _ operation => operation.issue answer
  | .crash => none

def acceptance (answer : Option Answer) : SessionEvent → Option (Nat × CachedOutcome)
  | .op _ operation => operation.acceptance answer
  | .crash => none

@[simp] theorem issue_none (event : SessionEvent) : event.issue none = none := by
  cases event with
  | op io operation => cases operation <;> rfl
  | crash => rfl

@[simp] theorem acceptance_none (event : SessionEvent) : event.acceptance none = none := by
  cases event with
  | op io operation => cases operation <;> rfl
  | crash => rfl

/-- Only a begin that is answered with a token issues one. -/
theorem issue_eq_some {event : SessionEvent} {answer : Option Answer} {issued : Issue}
    (hissue : event.issue answer = some issued) :
    ∃ io key nowMs, event = .op io (.begin key issued.fingerprint nowMs) ∧
      answer = some (.begun (.run issued.token)) := by
  cases event with
  | crash => simp [issue] at hissue
  | op io operation =>
      simp only [issue] at hissue
      unfold Operation.issue at hissue
      split at hissue
      next key fingerprint nowMs token =>
        obtain rfl := Option.some.inj hissue
        exact ⟨io, key, nowMs, rfl, rfl⟩
      next => contradiction

theorem event_eq_begin {event : SessionEvent} {issued : List Issue} {io : Io}
    {key : IdempotencyKey} {fingerprint : RequestFingerprint} {nowMs : UInt64}
    (hevent : event.event issued = some (.call io (.begin key fingerprint nowMs))) :
    event = .op io (.begin key fingerprint nowMs) := by
  cases event with
  | crash => simp [SessionEvent.event] at hevent
  | op otherIo operation =>
      cases operation <;> simp_all [SessionEvent.event, Operation.call]

end SessionEvent

/-- A node, the tokens it ever issued, and the completions it ever accepted. -/
structure Session (ν : Type) where
  node : ν
  issued : List Issue
  accepted : List (Nat × CachedOutcome)

namespace Session

variable {ν : Type}

def start (node : ν) : Session ν := ⟨node, [], []⟩

/-- The session after an answer. -/
def record (session : Session ν) (event : SessionEvent) (answer : Option Answer) (node : ν) :
    Session ν :=
  ⟨node, session.issued ++ (event.issue answer).toList,
    session.accepted ++ (event.acceptance answer).toList⟩

/-- Serve an event on the node. An operation with a token that was never issued
does not reach the node. -/
def step {ι : Type} (serve : ν → Event → Except ι (Option Answer × ν)) (session : Session ν)
    (event : SessionEvent) : Except ι (Option Answer × Session ν) :=
  match event.event session.issued with
  | none => .ok (none, session)
  | some nodeEvent => (serve session.node nodeEvent).map fun (answer, node) =>
      (answer, session.record event answer node)

/-- No token for the same key was issued after this place. -/
def Latest (issued : List Issue) (ticket : Nat) : Prop :=
  ∀ issue later place, issued[ticket]? = some issue → issued[place]? = some later →
    ticket < place → later.token.key ≠ issue.token.key

/-- One more token for another key does not matter. -/
theorem latest_append {issued : List Issue} {fresh issue : Issue} {ticket : Nat}
    (hticket : issued[ticket]? = some issue) :
    Latest (issued ++ [fresh]) ticket ↔
      Latest issued ticket ∧ fresh.token.key ≠ issue.token.key := by
  have hbound : ticket < issued.length := (List.getElem?_eq_some_iff.mp hticket).1
  have hsame : (issued ++ [fresh])[ticket]? = some issue := by
    rw [List.getElem?_append_left hbound]
    exact hticket
  constructor
  · intro hlatest
    refine ⟨fun one later place hone hlater hlt => ?_, ?_⟩
    · have hplace : place < issued.length := (List.getElem?_eq_some_iff.mp hlater).1
      obtain rfl := Option.some.inj (hticket.symm.trans hone)
      refine hlatest issue later place hsame ?_ hlt
      rw [List.getElem?_append_left hplace]
      exact hlater
    · exact hlatest issue fresh issued.length hsame (by simp) hbound
  · rintro ⟨hlatest, hkey⟩ one later place hone hlater hlt
    obtain rfl := Option.some.inj (hsame.symm.trans hone)
    by_cases hplace : place < issued.length
    · rw [List.getElem?_append_left hplace] at hlater
      exact hlatest issue later place hticket hlater hlt
    · rw [List.getElem?_append_right (by omega)] at hlater
      obtain rfl := List.mem_singleton.mp (List.mem_of_getElem? hlater)
      exact hkey

theorem latest_last (issued : List Issue) (fresh : Issue) :
    Latest (issued ++ [fresh]) issued.length := by
  intro issue later place _ hlater hlt
  have hplace := (List.getElem?_eq_some_iff.mp hlater).1
  simp only [List.length_append, List.length_singleton] at hplace
  omega

/-- Sessions over the steps of a relation. -/
inductive Moves (moves : ν → Event → Option Answer → ν → Prop) :
    Session ν → SessionEvent → Option Answer → Session ν → Prop where
  | skips {session : Session ν} {event : SessionEvent}
      (hevent : event.event session.issued = none) : Moves moves session event none session
  | serves {session : Session ν} {event : SessionEvent} {nodeEvent : Event}
      {answer : Option Answer} {node : ν} (hevent : event.event session.issued = some nodeEvent)
      (hmove : moves session.node nodeEvent answer node) :
      Moves moves session event answer (session.record event answer node)

/-- The nodes are related and the histories are the same. -/
structure Related {τ : Type} (related : ν → τ → Prop) (session : Session ν)
    (abstract : Session τ) : Prop where
  node : related session.node abstract.node
  issued : session.issued = abstract.issued
  accepted : session.accepted = abstract.accepted

/-- A simulation between nodes is one between their sessions. -/
theorem step_simulation {τ ι : Type} {serve : ν → Event → Except ι (Option Answer × ν)}
    {moves : τ → Event → Option Answer → τ → Prop} {related : ν → τ → Prop}
    {allowed : Event → Prop}
    (hserve : ∀ node abstract event, related node abstract → allowed event →
      ∃ answer next abstractNext, serve node event = .ok (answer, next) ∧
        moves abstract event answer abstractNext ∧ related next abstractNext)
    {session : Session ν} {abstract : Session τ} (hrelated : Related related session abstract)
    {event : SessionEvent}
    (hallowed : ∀ nodeEvent ∈ event.event session.issued, allowed nodeEvent) :
    ∃ answer next abstractNext, step serve session event = .ok (answer, next) ∧
      Moves moves abstract event answer abstractNext ∧ Related related next abstractNext := by
  have hissued := hrelated.issued
  cases hevent : event.event session.issued with
  | none =>
      refine ⟨none, session, abstract, ?_, .skips (hissued ▸ hevent), hrelated⟩
      simp only [step, hevent]
  | some nodeEvent =>
      obtain ⟨answer, next, abstractNext, hstep, hmove, hnext⟩ :=
        hserve _ _ nodeEvent hrelated.node (hallowed nodeEvent hevent)
      refine ⟨answer, session.record event answer next, _, ?_,
        .serves (hissued ▸ hevent) hmove, hnext, ?_, ?_⟩
      · simp only [step, hevent, hstep, Except.map]
      · simp only [record, hissued]
      · simp only [record, hrelated.accepted]

theorem step_of_moves {ι : Type} {serve : ν → Event → Except ι (Option Answer × ν)}
    {session next : Session ν} {event : SessionEvent} {answer : Option Answer}
    (hmove : Moves (fun node event answer next => serve node event = .ok (answer, next)) session
      event answer next) : step serve session event = .ok (answer, next) := by
  cases hmove with
  | skips hevent => simp only [step, hevent]
  | serves hevent hserve => simp only [step, hevent, hserve, Except.map]

theorem step_skips {ι : Type} {serve : ν → Event → Except ι (Option Answer × ν)}
    {session : Session ν} {operation : Operation} (hcall : operation.call session.issued = none)
    (io : Io) : step serve session (.op io operation) = .ok (none, session) := by
  simp only [step, SessionEvent.event, hcall, Option.map_none]

theorem step_serves {ι : Type} {serve : ν → Event → Except ι (Option Answer × ν)}
    {session : Session ν} {operation : Operation} {call : EngineCall} {io : Io}
    {answer : Option Answer} {node : ν} (hcall : operation.call session.issued = some call)
    (hserve : serve session.node (.call io call) = .ok (answer, node)) :
    step serve session (.op io operation) =
      .ok (answer, session.record (.op io operation) answer node) := by
  simp only [step, SessionEvent.event, hcall, Option.map_some, hserve, Except.map]

/-- An event that is answered reached the node. -/
theorem step_answered {ι : Type} {serve : ν → Event → Except ι (Option Answer × ν)}
    {session next : Session ν} {event : SessionEvent} {reply : Answer}
    (hstep : step serve session event = .ok (some reply, next)) :
    ∃ nodeEvent node, event.event session.issued = some nodeEvent ∧
      serve session.node nodeEvent = .ok (some reply, node) := by
  unfold step at hstep
  split at hstep
  next => cases hstep
  next nodeEvent hevent =>
    cases hserve : serve session.node nodeEvent with
    | error failure => simp [hserve, Except.map] at hstep
    | ok result =>
        obtain ⟨answer, node⟩ := result
        simp only [hserve, Except.map, Except.ok.injEq, Prod.mk.injEq] at hstep
        exact ⟨nodeEvent, node, hevent, by rw [hserve, hstep.1]⟩

end Session

/-! ## Engines in memory -/

namespace Memory

def fresh (leaseMs ttlMs : UInt64) : Engine MemoryStore :=
  Engine.withTtl MemoryStore.new leaseMs ttlMs

/-- An engine in memory, to which no crash ever happens. -/
def serve (engine : Engine MemoryStore) : Event →
    Except Panic (Option Answer × Engine MemoryStore)
  | .call io call =>
      match call.run io engine with
      | .ok answer next => .ok (some answer, next)
      | .error panic _ => .error panic
  | .crash => .ok (none, engine)

/-- A call on a store in memory returns as planned, whatever becomes of I/O. -/
theorem serve_call (engine : Engine MemoryStore) (io : Io) (call : EngineCall) :
    ∃ next, serve engine (.call io call) = .ok (some (engine.plan call).answer, next) ∧
      next.leaseMs = engine.leaseMs ∧ next.ttlMs = engine.ttlMs ∧
      next.nextFence = (engine.plan call).nextFence ∧
      Store.get next.store =
        fun key => (engine.plan call).effect key (Store.get engine.store key) := by
  have hio : call.run io engine = call.run .done engine := by
    rw [Engine.run_eq_plan, Engine.run_eq_plan]
    match (engine.plan call).storeCall with
    | none => rfl
    | some (.put ..) => rfl
    | some .flush => rfl
    | some (.compact ..) => rfl
  obtain ⟨next, hrun, hlease, httl, hnextFence, hstates⟩ := Engine.run_lawful call engine
  refine ⟨next, ?_, hlease, httl, hnextFence, funext hstates⟩
  rw [serve, hio, hrun]

end Memory

end Onced
