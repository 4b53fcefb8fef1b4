import Onced.Gateway.Answers
import Onced.Gateway.Exposition

/-! # From socket to socket

The blocking transport serves every connection on a thread of its own: one request is read,
the router handles it, and one response is written. The backend is at the other end of
another connection, to which the request is written and from which one response is read.
The threads run side by side, and a panic in one of them ends the process: that is what
becomes of a length that no buffer can have, whoever announces it. Until then every
connection gets the bytes of one response, and requests that were answered from the backend
are answered again without it.
-/

namespace Onced

open Foundation Http Abuse

/-! ## Connections -/

/-- The text of an error. -/
def Http.Error.message : Http.Error → String
  | .invalidUtf8 => "stream did not contain valid UTF-8"
  | .invalid message => message
  | .unexpectedEof => "failed to fill whole buffer"

/-- What a thread makes of its connection, given what it reads from it. A connection that
fails before there is a request, or has none to offer, is closed. -/
def handleConnection (input : Option (List UInt8)) (nowMs : UInt64) :
    Except Panic (Option Pool.Event) :=
  match input with
  | none => .ok none
  | some bytes =>
      match parseRequest bytes with
      | .ok (some request, _) => .ok (some (.arrive request nowMs))
      | .ok (none, _) => .ok none
      | .error (.failed _) => .ok none
      | .error .panicked => .error "capacity overflow"

/-- The response that the backend has written, or why there is none. -/
def HttpUpstream.forward (answer : Except String (List UInt8)) :
    Except Panic (Except String Response) :=
  match answer with
  | .error failure => .ok (.error failure)
  | .ok bytes =>
      match parseResponse bytes with
      | .ok (response, _) => .ok (.ok response)
      | .error (.failed error) => .ok (.error error.message)
      | .error .panicked => .error "capacity overflow"

/-- What the process does to its connections. -/
inductive Output where
  /-- A connection is closed without an answer. -/
  | closed
  /-- The request of a connection has been read. -/
  | accepted (id : Nat)
  /-- Bytes are written to the backend. -/
  | sent (id : Nat) (bytes : List UInt8)
  /-- Bytes are written to the client. -/
  | wrote (id : Nat) (bytes : List UInt8)
  deriving DecidableEq

def Output.of : Notice → Output
  | .accepted id => .accepted id
  | .called id request => .sent id (writeRequest request)
  | .answered id response => .wrote id (writeResponse response)

def Output.id : Output → Option Nat
  | .closed => none
  | .accepted id => some id
  | .sent id _ => some id
  | .wrote id _ => some id

theorem Output.id_of (notice : Notice) : (Output.of notice).id = some notice.id := by
  cases notice <;> rfl

namespace Server

/-- What happens next to the process. -/
inductive Event where
  /-- A connection, and what can be read from it, unless reading fails. -/
  | connection (input : Option (List UInt8)) (nowMs : UInt64)
  /-- The next section of a request. -/
  | proceed (id : Nat)
  /-- What can be read from the backend's connection, or why nothing can. -/
  | backend (id : Nat) (answer : Except String (List UInt8))
  /-- The pruner's section on a shard. -/
  | prune (index : Nat) (iteration : Iteration) (nowMs : UInt64)

/-- What the threads make of it; none of them looks at the others. -/
def read {σ : Type} (_pool : Pool σ) : Event → Except Panic (Option Pool.Event)
  | .connection input nowMs => handleConnection input nowMs
  | .proceed id => .ok (some (.proceed id))
  | .backend id answer =>
      (HttpUpstream.forward answer).map fun forwarded => some (.returned id forwarded)
  | .prune index iteration nowMs => .ok (some (.prune index iteration nowMs))

def step {σ : Type} [Store σ] (hash : String → UInt64) (pool : Pool σ) (event : Event) :
    Except Panic (Option Output × Pool σ) :=
  pool.feed hash .closed Output.of (read pool event)

end Server

/-! ## What is read -/

theorem handleConnection_eq_some {input : Option (List UInt8)} {nowMs : UInt64}
    {event : Pool.Event} (hread : handleConnection input nowMs = .ok (some event)) :
    ∃ bytes request left, input = some bytes ∧ parseRequest bytes = .ok (some request, left) ∧
      event = .arrive request nowMs := by
  unfold handleConnection at hread
  split at hread
  next => cases hread
  next bytes =>
    split at hread
    next request left hparse =>
      cases hread
      exact ⟨bytes, request, left, rfl, hparse, rfl⟩
    next => cases hread
    next => cases hread
    next => cases hread

theorem handleConnection_eq_none {input : Option (List UInt8)} {nowMs : UInt64}
    (hread : handleConnection input nowMs = .ok none) {bytes : List UInt8}
    (hinput : input = some bytes) (request : Request) (left : List UInt8) :
    parseRequest bytes ≠ .ok (some request, left) := by
  intro hparse
  rw [hinput, handleConnection, hparse] at hread
  cases hread

theorem HttpUpstream.isAnswer {answer : Except String (List UInt8)} {response : Response}
    (hforward : HttpUpstream.forward answer = .ok (.ok response)) : IsAnswer response := by
  unfold forward at hforward
  split at hforward
  next => cases hforward
  next =>
    split at hforward
    next hparse =>
      cases hforward
      exact parseResponse_isAnswer hparse
    next => cases hforward
    next => cases hforward

namespace Server

/-- The backend's answers are such that they can be written again. -/
theorem read_plain {σ : Type} {pool : Pool σ} {event : Event} {fed : Pool.Event}
    (hread : read pool event = .ok (some fed)) : fed.Plain IsAnswer := by
  rintro id response rfl
  cases event with
  | connection input nowMs =>
      obtain ⟨_, _, _, -, -, hevent⟩ := handleConnection_eq_some hread
      cases hevent
  | proceed => cases hread
  | backend own answer =>
      simp only [read] at hread
      cases hforward : HttpUpstream.forward answer with
      | error panic =>
          rw [hforward] at hread
          cases hread
      | ok forwarded =>
          rw [hforward] at hread
          cases hread
          exact HttpUpstream.isAnswer hforward
  | prune => cases hread

end Server

/-! ## Answers on the wire -/

theorem isAnswer_tag {response : Response} (hanswer : IsAnswer response) {status : String}
    (hstatus : IsHeader ("Onced-Status", status)) : IsAnswer (tag response status) where
  headers := by
    intro header hheader
    rcases List.mem_append.mp hheader with hold | hnew
    · exact hanswer.headers header hold
    · rw [List.mem_singleton.mp hnew]
      exact hstatus
  body := hanswer.body

/-- What is replayed was an answer before it was stored. -/
theorem isAnswer_fromOutcome {response : Response} (hanswer : IsAnswer response) :
    IsAnswer (fromOutcome (toOutcome response)) where
  headers header hheader := hanswer.headers header (headers_fromOutcome_subset response hheader)
  body := hanswer.body

theorem isHeader_status : ∀ status ∈ ["created", "replayed", "in-progress", "mismatch", "denied",
    "upstream-error", "healthy"], IsHeader ("Onced-Status", status) := by
  intro status hstatus
  simp only [List.mem_cons, List.not_mem_nil, or_false] at hstatus
  rcases hstatus with rfl | rfl | rfl | rfl | rfl | rfl | rfl <;>
    exact ⟨by decide, by decide, by decide, by decide, by decide⟩

theorem isHeader_action : ∀ action ∈ ["challenge", "throttle", "block"],
    IsHeader ("Onced-Action", action) := by
  intro action haction
  simp only [List.mem_cons, List.not_mem_nil, or_false] at haction
  rcases haction with rfl | rfl | rfl <;>
    exact ⟨by decide, by decide, by decide, by decide, by decide⟩

theorem isAnswer_status {code : UInt16} {status : String} {body : List UInt8}
    (hstatus : IsHeader ("Onced-Status", status)) (hbody : body.length ≤ isizeMax) :
    IsAnswer ⟨code, [("Onced-Status", status)], body⟩ where
  headers := by
    intro header hheader
    rw [List.mem_singleton.mp hheader]
    exact hstatus
  body := hbody

theorem isAnswer_tooManyRequests {rule : String} (hrule : IsHeader ("Onced-Rule", rule))
    (action : Abuse.Action) : IsAnswer (tooManyRequests rule action) where
  headers := by
    intro header hheader
    simp only [tooManyRequests, List.mem_cons, List.not_mem_nil, or_false] at hheader
    rcases hheader with rfl | rfl | rfl
    · exact isHeader_status "denied" (by decide)
    · exact hrule
    · apply isHeader_action
      cases action <;> decide
  body := Nat.zero_le _

/-- Every response that the gateway makes of responses can be written. -/
theorem preserved_isAnswer :
    Preserved IsAnswer IsAnswer fun name => IsHeader ("Onced-Rule", name) where
  stored _ hanswer := isAnswer_fromOutcome hanswer
  passed _ hanswer := hanswer
  created _ hanswer := isAnswer_tag hanswer (isHeader_status "created" (by decide))
  replayed _ hanswer := isAnswer_tag hanswer (isHeader_status "replayed" (by decide))
  badGateway := isAnswer_status (isHeader_status "upstream-error" (by decide)) (by decide)
  inProgress := isAnswer_status (isHeader_status "in-progress" (by decide)) (by decide)
  mismatch := isAnswer_status (isHeader_status "mismatch" (by decide)) (by decide)
  healthOk := isAnswer_status (isHeader_status "healthy" (by decide)) (by decide)
  metrics := isAnswer_metricsResponse
  denied _ action hrule := isAnswer_tooManyRequests hrule action

theorem parseResponse_written {response : Response} (hanswer : IsAnswer response) :
    parseResponse (writeResponse response) = .ok (delivered response, []) := by
  have hread := parseResponse_writeResponse hanswer []
  rwa [List.append_nil] at hread

/-! ## Runs -/

namespace Server

variable {σ : Type} [Store σ] [LawfulStore σ] {hash : String → UInt64} {router : Router σ}
  {pool next last : Pool σ} {events : List Event} {log : List (Option Output)}

/-- What the steps of the process do. -/
abbrev Steps (hash : String → UInt64) : Pool σ → Event → Option Output → Pool σ → Prop :=
  Pool.Fed hash .closed Output.of read

omit [LawfulStore σ] in
theorem step_eq (hash : String → UInt64) (pool : Pool σ) (event : Event) :
    step hash pool event = pool.feed hash .closed Output.of (read pool event) := rfl

theorem path (hproper : pool.Proper hash)
    (hrun : runSteps (step hash) pool events = .ok (log, last)) :
    Path (Steps hash) pool events log last ∧ last.Proper hash :=
  Pool.feed_path (step_eq hash) hproper hrun

/-- What is done to a connection so far: the request is sent to the backend once at most, and one
response at most is written, which its client reads as it was meant. -/
inductive Exchanged (id : Nat) (request : Request) : List Output → Prop where
  | reads : Exchanged id request [.accepted id]
  | waits : Exchanged id request [.accepted id, .sent id (writeRequest request)]
  | answers {response : Response}
      (hread : parseResponse (writeResponse response) = .ok (delivered response, [])) :
      Exchanged id request [.accepted id, .wrote id (writeResponse response)]
  | forwards {response : Response}
      (hread : parseResponse (writeResponse response) = .ok (delivered response, [])) :
      Exchanged id request [.accepted id, .sent id (writeRequest request),
        .wrote id (writeResponse response)]

omit [LawfulStore σ] in
theorem exchanged_of_upholds
    (hupholds : pool.Upholds IsAnswer IsAnswer fun name => IsHeader ("Onced-Rule", name)) {id : Nat}
    {job : Job} (hjob : pool.jobs[id]? = some job) :
    Exchanged id job.request ((pool.told id).map Output.of) := by
  have hgood := hupholds.jobs job (List.mem_of_getElem? hjob)
  simp only [Pool.told, hjob, Option.elim_some]
  obtain ⟨request, nowMs, stage⟩ := job
  cases stage with
  | received => exact .reads
  | scraping => exact .reads
  | admitted => exact .reads
  | routed => exact .reads
  | forwarding => exact .waits
  | answered response called =>
      have hread := parseResponse_written (hgood response called rfl)
      cases called with
      | false => exact .answers hread
      | true => exact .forwards hread

/-- A connection that offers a request is accepted, and one that does not is closed. -/
def Greeted (last : Pool σ) (event : Event) (output : Option Output) : Prop :=
  ∀ input nowMs, event = .connection input nowMs →
    (∃ bytes request left id stage, input = some bytes ∧
      parseRequest bytes = .ok (some request, left) ∧ output = some (.accepted id) ∧
      last.jobs[id]? = some ⟨request, nowMs, stage⟩) ∨
    (∀ bytes request left, input = some bytes → parseRequest bytes ≠ .ok (some request, left)) ∧
      output = some .closed

omit [LawfulStore σ] in
theorem greeted_of_path (hpath : Path (Steps hash) pool events log last) :
    List.Forall₂ (Greeted last) events log := by
  refine (Pool.greets_of_fed hpath).imp ?_
  rintro event output ⟨current, reading, hread, hclosed, haccepted⟩ input nowMs rfl
  cases reading with
  | none =>
      exact Or.inr ⟨fun bytes request left hinput =>
        handleConnection_eq_none hread hinput request left, hclosed rfl⟩
  | some fed =>
      obtain ⟨bytes, request, left, rfl, hparse, rfl⟩ := handleConnection_eq_some hread
      obtain ⟨id, stage, houtput, hjob⟩ := haccepted request nowMs rfl
      exact Or.inl ⟨bytes, request, left, id, stage, rfl, hparse, houtput, hjob⟩

omit [LawfulStore σ] in
/-- What has been done to a connection, as the log has it. -/
theorem mem_log (hpath : Path (Steps hash) ⟨router, []⟩ events log last) {id : Nat} {job : Job}
    (hjob : last.jobs[id]? = some job) {output : Output} (hid : output.id = some id) :
    some output ∈ log ↔ ∃ notice ∈ job.told id, Output.of notice = output :=
  Pool.mem_outputs_iff rfl Output.id_of hpath hjob hid

omit [LawfulStore σ] in
/-- A request that is answered has its answer written. -/
theorem wrote_of_answered (hpath : Path (Steps hash) ⟨router, []⟩ events log last) {id : Nat}
    {job : Job} (hjob : last.jobs[id]? = some job) {response : Response} {called : Bool}
    (hstage : job.stage = .answered response called) :
    some (.wrote id (writeResponse response)) ∈ log :=
  (mem_log hpath hjob rfl).mpr ⟨_, Job.told_answered hstage id, rfl⟩

end Server

section Runs

variable {σ : Type} [Store σ] [LawfulStore σ]

/-- Whatever comes in over the connections, whatever the backend answers, and in whatever order the
threads run, until the process ends: a connection that offers a request is accepted and any other
is closed; what is sent to the backend for one and written to it is one request and one response
at most, which its client reads as it was meant; and its thread, run on, comes to write it. -/
theorem connections_get_one_response (hash : String → UInt64) {gateways : List (Gateway σ)}
    {abuse : List RuleSet} {router : Router σ} (hnew : Router.new gateways abuse = .ok router)
    (hstored : ∀ gateway ∈ gateways, ∀ key, Sound IsAnswer (Store.get gateway.engine.store key))
    (hrules : ∀ rules ∈ abuse, ∀ rule ∈ rules.rules, IsHeader ("Onced-Rule", rule.name))
    {events : List Server.Event} {log : List (Option Output)} {last : Pool σ}
    (hrun : runSteps (Server.step hash) ⟨router, []⟩ events = .ok (log, last)) :
    List.Forall₂ (Server.Greeted last) events log ∧
      (∀ id, last.jobs[id]? = none → log.flatMap (Pool.concerning Output.id id) = []) ∧
      ∀ id job, last.jobs[id]? = some job →
        Server.Exchanged id job.request (log.flatMap (Pool.concerning Output.id id)) ∧
        ∀ answer forwarded, HttpUpstream.forward answer = .ok forwarded →
          ∃ count more final bytes, runSteps (Server.step hash) last
              (List.replicate count (.proceed id) ++ [.backend id answer]) = .ok (more, final) ∧
            some (.wrote id bytes) ∈ log ++ more := by
  have hproper := Pool.proper_of_new hash hnew
  obtain ⟨hpath, hlast⟩ := Server.path hproper hrun
  have hupholds : last.Upholds IsAnswer IsAnswer fun name => IsHeader ("Onced-Rule", name) := by
    apply Pool.upholds_of_fed preserved_isAnswer (fun _ _ _ _ => Server.read_plain) hpath
    exact ⟨Router.upholds_of_new hnew hstored hrules, fun job hjob => absurd hjob List.not_mem_nil⟩
  have houtputs := Pool.outputs_eq_told rfl Output.id_of hpath
  refine ⟨Server.greeted_of_path hpath, ?_, ?_⟩
  · intro id hnone
    rw [houtputs, Pool.told, hnone]
    rfl
  · intro id job hjob
    rw [houtputs]
    refine ⟨Server.exchanged_of_upholds hupholds hjob, ?_⟩
    intro answer forwarded hforward
    have hback : ∀ pool : Pool σ, ∃ forwarded,
        Server.read pool (.backend id answer) = .ok (some (.returned id forwarded)) := by
      intro pool
      exact ⟨forwarded, by simp only [Server.read, hforward]; rfl⟩
    have hgo : ∀ pool : Pool σ, Server.read pool (.proceed id) = .ok (some (.proceed id)) :=
      fun _ => rfl
    obtain ⟨count, more, final, response, called, hmore, hanswered⟩ :=
      Pool.feed_ends (Server.step_eq hash) hgo hback hlast hjob
    refine ⟨count, more, final, writeResponse response, hmore, ?_⟩
    obtain ⟨hwhole, -⟩ := Server.path hproper (runSteps_append hrun hmore)
    exact Server.wrote_of_answered hwhole hanswered rfl

end Runs

/-! ## Two charges -/

/-- One shard, on which nothing has happened yet, with a rule of five requests a second. -/
def counter : Router MemoryStore := ⟨(Router.desks 1).map .fresh, [burst], 0, 0⟩

theorem counter_new : Router.new (Router.desks 1) [burst] = .ok counter := rfl

def charged : Response := ⟨201, [], utf8 "charged"⟩

/-- A charge is sent to the backend. While it is there, a connection is closed at once and the
same charge comes in again; then the backend answers. -/
def crossing : List Server.Event :=
  [.connection (some (writeRequest charge)) 0, .proceed 0, .proceed 0, .proceed 0,
    .connection (some []) 1, .connection (some (writeRequest charge)) 1, .proceed 1, .proceed 1,
    .backend 0 (.ok (writeResponse charged))]

def crossed : List (Option Output) :=
  [some (.accepted 0), none, none, some (.sent 0 (writeRequest (forwarded charge))),
    some .closed, some (.accepted 1), none, none,
    some (.wrote 0 (writeResponse (tag (delivered charged) "created")))]

theorem crossing_runs :
    ∃ last, runSteps (Server.step fun _ => 7) ⟨counter, []⟩ crossing = .ok (crossed, last) ∧
      last.jobs = [⟨forwarded charge, 0, .answered (tag (delivered charged) "created") true⟩,
        ⟨forwarded charge, 1, .routed 0⟩] := by
  have hruns : (runSteps (Server.step fun _ => 7) ⟨counter, []⟩ crossing).toOption.map
      (fun run => (run.1, run.2.jobs)) =
        some (crossed, [⟨forwarded charge, 0, .answered (tag (delivered charged) "created") true⟩,
          ⟨forwarded charge, 1, .routed 0⟩]) := by decide +kernel
  cases hrun : runSteps (Server.step fun _ => 7) ⟨counter, []⟩ crossing with
  | error panic =>
      rw [hrun] at hruns
      cases hruns
  | ok run =>
      rw [hrun] at hruns
      obtain ⟨log, last⟩ := run
      obtain ⟨rfl, hjobs⟩ := Prod.mk.inj (Option.some.inj hruns)
      exact ⟨last, rfl, hjobs⟩

/-- The first charge is answered, and the second one comes to be. -/
theorem connections_get_one_response_crossing :
    ∃ last, runSteps (Server.step fun _ => 7) ⟨counter, []⟩ crossing = .ok (crossed, last) ∧
      List.Forall₂ (Server.Greeted last) crossing crossed ∧
      Server.Exchanged 0 (forwarded charge) [.accepted 0, .sent 0 (writeRequest (forwarded charge)),
        .wrote 0 (writeResponse (tag (delivered charged) "created"))] ∧
      ∃ count more final bytes, runSteps (Server.step fun _ => 7) last
          (List.replicate count (.proceed 1) ++ [.backend 1 (.error "refused")]) =
            .ok (more, final) ∧
        some (.wrote 1 bytes) ∈ crossed ++ more := by
  obtain ⟨last, hrun, hjobs⟩ := crossing_runs
  have hstored : ∀ gateway ∈ Router.desks 1, ∀ key,
      Sound IsAnswer (Store.get gateway.engine.store key) := by
    intro gateway hgateway key _ _ _ hrecord
    rw [(Router.desks_setup hgateway).2.2 key] at hrecord
    cases hrecord
  have hrules : ∀ rules ∈ [burst], ∀ rule ∈ rules.rules, IsHeader ("Onced-Rule", rule.name) := by
    intro rules hset rule hrule
    rw [List.mem_singleton.mp hset] at hrule
    rw [List.mem_singleton.mp hrule]
    exact ⟨by decide, by decide, by decide, by decide, by decide⟩
  obtain ⟨hgreeted, -, hserved⟩ := connections_get_one_response (fun _ => 7) counter_new hstored
    hrules hrun
  exact ⟨last, hrun, hgreeted, (hserved 0 _ (by rw [hjobs]; rfl)).1,
    (hserved 1 _ (by rw [hjobs]; rfl)).2 (.error "refused") _ rfl⟩

end Onced
