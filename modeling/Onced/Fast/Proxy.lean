import Onced.Gateway.Transport

/-! # The async transport

A third transport over the same router. It leaves the wire to its libraries: requests and
replies come in as values that the libraries have read, the backend is called through a
client of theirs, and a response leaves as a value that they have built. What they do is not
modelled: their functions are parameters, with the laws that are needed of them. Tasks run
side by side, and no lock is held while a task waits for the backend.
-/

namespace Onced.Fast

open Foundation Abuse

/-! ## The libraries -/

/-- The values that the libraries hand over, and their functions that the transport calls. -/
structure Library where
  /-- The head of a request. -/
  Parts : Type
  /-- The body of a request, before it has been read. -/
  Body : Type
  Method : Type
  /-- A reply of the backend, before its body has been read. -/
  Reply : Type
  /-- A response that can be sent. -/
  Outgoing : Type
  method : Parts → String
  pathAndQuery : Parts → Option String
  /-- The headers of a request, with their values as far as they are text. -/
  headers : Parts → List (String × Option String)
  /-- The bytes of a body, unless there are more than this or they do not arrive. -/
  toBytes : Body → Nat → Option (List UInt8)
  methodFromBytes : List UInt8 → Except String Method
  replyStatus : Reply → UInt16
  replyHeaders : Reply → List (String × Option String)
  replyBytes : Reply → Except String (List UInt8)
  /-- The builder, given a status, headers one after the other, and a body. -/
  build : Response → Option Outgoing
  status : Outgoing → UInt16
  /-- The values under a name, in their order. -/
  values : Outgoing → String → List String
  body : Outgoing → List UInt8
  /-- The builder takes the status, or the header. -/
  isStatus : UInt16 → Prop
  isHeader : String × String → Prop
  /-- The builder takes this many headers, whatever they are. -/
  room : Nat

/-- The headers that the gateway sets, apart from the names of rules. -/
def ownHeaders : List (String × String) :=
  [("Onced-Status", "created"), ("Onced-Status", "replayed"), ("Onced-Status", "in-progress"),
    ("Onced-Status", "mismatch"), ("Onced-Status", "denied"), ("Onced-Status", "upstream-error"),
    ("Onced-Status", "healthy"), ("Onced-Action", "challenge"), ("Onced-Action", "throttle"),
    ("Onced-Action", "block"), ("Content-Type", "text/plain; version=0.0.4")]

namespace Library

variable (library : Library)

/-- The status, the body, and under every name the values of the response. -/
structure Renders (response : Response) (outgoing : library.Outgoing) : Prop where
  status : library.status outgoing = response.status
  values : ∀ name, library.values outgoing name =
    (response.headers.filter fun header => eqIgnoreAsciiCase header.1 name).map Prod.snd
  body : library.body outgoing = response.body

/-- The builder takes the response, and so many headers more. -/
structure Takes (spare : Nat) (response : Response) : Prop where
  status : library.isStatus response.status
  headers : ∀ header ∈ response.headers, library.isHeader header
  room : response.headers.length + spare ≤ library.room

/-- What the transport needs of the libraries: the builder builds what it is given, if it takes it;
it takes what came in a reply, and what the gateway sets itself. -/
structure Lawful : Prop where
  builds : ∀ response, library.Takes 0 response → ∃ outgoing, library.build response = some outgoing
  renders : ∀ response outgoing, library.build response = some outgoing →
    library.Renders response outgoing
  replyStatus : ∀ reply, library.isStatus (library.replyStatus reply)
  replyHeader : ∀ reply name text, (name, some text) ∈ library.replyHeaders reply →
    library.isHeader (name, text)
  ownStatus : ∀ status ∈ [200, 409, 413, 422, 429, 502], library.isStatus status
  ownHeader : ∀ header ∈ ownHeaders, library.isHeader header
  ownRoom : 3 ≤ library.room

end Library

/-! ## Conversions -/

/-- The loop over the headers, which leaves out those whose values are not text. -/
def texts (headers : List (String × Option String)) : List (String × String) :=
  headers.filterMap fun (name, value) => value.map fun text => (name, text)

/-- The headers that the client sets itself. -/
def ownedByClient (name : String) : Bool :=
  eqIgnoreAsciiCase name "host" || eqIgnoreAsciiCase name "content-length" ||
    eqIgnoreAsciiCase name "connection"

/-- What the client is asked to send. -/
structure Call (μ : Type) where
  method : μ
  url : String
  headers : List (String × String)
  body : Option (List UInt8)

namespace Library

variable (library : Library)

/-- The request that the router is given. -/
def toOncedRequest (parts : library.Parts) (body : List UInt8) : Request :=
  ⟨library.method parts, (library.pathAndQuery parts).getD "/", texts (library.headers parts), body⟩

/-- The response in a reply, unless its body does not arrive. -/
def toResponse (reply : library.Reply) : Except String Response :=
  (library.replyBytes reply).map fun body =>
    ⟨library.replyStatus reply, texts (library.replyHeaders reply), body⟩

def textResponse (status : UInt16) (message : String) : Except Panic library.Outgoing :=
  match library.build ⟨status, [], utf8 message⟩ with
  | some outgoing => .ok outgoing
  | none => .error "static response is always valid"

/-- The response that the client is given. -/
def toAxumResponse (response : Response) : Except Panic library.Outgoing :=
  match library.build response with
  | some outgoing => .ok outgoing
  | none => library.textResponse 502 "malformed upstream response"

end Library

/-! ## The proxy -/

/-- The settings of a proxy. -/
structure Proxy (library : Library) where
  backend : String
  maxBody : Nat

def maxBody : Nat := 1024 * 1024

/-- What happens next to the process. -/
inductive Event (library : Library) where
  /-- A request, the body of which has been read or has failed to be. -/
  | request (parts : library.Parts) (body : library.Body) (nowMs : UInt64)
  /-- The next section of a request. -/
  | proceed (id : Nat)
  /-- What the client returns for a request, if it was asked to send it. -/
  | backend (id : Nat) (answer : Except String library.Reply)
  /-- The pruner's section on a shard. -/
  | prune (index : Nat) (iteration : Iteration) (nowMs : UInt64)

/-- What the process does. A response may fail to be made, which ends the process. -/
inductive Output (library : Library) where
  /-- A request is answered without being looked at. -/
  | refused (made : Except Panic library.Outgoing)
  | accepted (id : Nat)
  /-- The client is asked to send a request, unless its method is refused. -/
  | forwards (id : Nat) (call : Except String (Call library.Method))
  /-- The response to a request leaves. -/
  | left (id : Nat) (made : Except Panic library.Outgoing)

namespace Output

variable {library : Library}

def id : Output library → Option Nat
  | .refused _ => none
  | .accepted id => some id
  | .forwards id _ => some id
  | .left id _ => some id

def panic : Output library → Option Panic
  | .refused (.error panic) => some panic
  | .left _ (.error panic) => some panic
  | _ => none

end Output

namespace Proxy

variable {library : Library} {σ : Type}

/-- A base without a scheme is one for plain HTTP. -/
def withClient (backend : String) (maxBody : Nat) : Proxy library :=
  if backend.startsWith "http://" ∨ backend.startsWith "https://" then ⟨backend, maxBody⟩
  else ⟨"http://" ++ backend, maxBody⟩

def new (backend : String) : Proxy library := .withClient backend Fast.maxBody

/-- The first half of forwarding: the request as the client is to send it. -/
def toCall (proxy : Proxy library) (request : Request) : Except String (Call library.Method) :=
  (library.methodFromBytes (utf8 request.method)).map fun method =>
    { method
      url := proxy.backend ++ request.target
      headers := request.headers.filter fun header => !ownedByClient header.1
      body := if request.body = [] then none else some request.body }

/-- Forward a request, given what the client returns if it comes to that. -/
def forward (proxy : Proxy library) (request : Request) (answer : Except String library.Reply) :
    Except String Response := do
  let _ ← proxy.toCall request
  library.toResponse (← answer)

/-- What the tasks make of it. -/
def read (proxy : Proxy library) (pool : Pool σ) :
    Event library → Except Panic (Option Pool.Event)
  | .request parts body nowMs => .ok <| (library.toBytes body proxy.maxBody).map fun bytes =>
      .arrive (library.toOncedRequest parts bytes) nowMs
  | .proceed id => .ok (some (.proceed id))
  | .backend id answer => .ok <| some <| .returned id <|
      match pool.jobs[id]? with
      | some job => proxy.forward job.request answer
      -- No task waits for this answer.
      | none => answer >>= library.toResponse
  | .prune index iteration nowMs => .ok (some (.prune index iteration nowMs))

def refusal : Output library := .refused (library.textResponse 413 "request body too large")

def shows (proxy : Proxy library) : Notice → Output library
  | .accepted id => .accepted id
  | .called id request => .forwards id (proxy.toCall request)
  | .answered id response => .left id (library.toAxumResponse response)

def step [Store σ] (proxy : Proxy library) (hash : String → UInt64) (pool : Pool σ)
    (event : Event library) : Except Panic (Option (Output library) × Pool σ) := do
  let (output, next) ← pool.feed hash refusal proxy.shows (proxy.read pool event)
  match output.bind Output.panic with
  | some panic => .error panic
  | none => .ok (output, next)

end Proxy

/-! ## What the libraries are given -/

namespace Library.Lawful

variable {library : Library} (hlawful : library.Lawful)

include hlawful

theorem textResponse_ok {status : UInt16} (hstatus : library.isStatus status) (message : String) :
    ∃ outgoing, library.textResponse status message = .ok outgoing ∧
      library.Renders ⟨status, [], utf8 message⟩ outgoing := by
  obtain ⟨outgoing, hbuild⟩ := hlawful.builds ⟨status, [], utf8 message⟩
    ⟨hstatus, fun header hheader => absurd hheader List.not_mem_nil, Nat.zero_le _⟩
  exact ⟨outgoing, by rw [textResponse, hbuild], hlawful.renders _ outgoing hbuild⟩

/-- Whatever the response is, it or its stand-in leaves. -/
theorem toAxumResponse_ok (response : Response) :
    ∃ outgoing, library.toAxumResponse response = .ok outgoing := by
  cases hbuild : library.build response with
  | some outgoing => exact ⟨outgoing, by rw [toAxumResponse, hbuild]⟩
  | none =>
      obtain ⟨outgoing, htext, -⟩ := hlawful.textResponse_ok
        (hlawful.ownStatus 502 (by decide)) "malformed upstream response"
      exact ⟨outgoing, by rw [toAxumResponse, hbuild, htext]⟩

end Library.Lawful

theorem length_texts_le (headers : List (String × Option String)) :
    (texts headers).length ≤ headers.length := List.length_filterMap_le _ _

theorem mem_texts {headers : List (String × Option String)} {header : String × String}
    (hheader : header ∈ texts headers) : (header.1, some header.2) ∈ headers := by
  obtain ⟨⟨name, value⟩, hmem, hsome⟩ := List.mem_filterMap.mp hheader
  obtain ⟨text, rfl, rfl⟩ := Option.map_eq_some_iff.mp hsome
  exact hmem

namespace Proxy

variable {library : Library} {σ : Type} (proxy : Proxy library) {hash : String → UInt64}
  {pool last : Pool σ} {events : List (Event library)} {log : List (Option (Output library))}
  {router : Router σ}

/-! ## What is read and what is shown -/

/-- The reply, if there is one, leaves room for the tag. -/
def Roomy (answer : Except String library.Reply) : Prop :=
  ∀ reply, answer = .ok reply → (library.replyHeaders reply).length < library.room

theorem takes_of_toResponse (hlawful : library.Lawful) {answer : Except String library.Reply}
    (hroomy : Roomy answer) {response : Response}
    (hresponse : answer >>= library.toResponse = .ok response) : library.Takes 1 response := by
  cases answer with
  | error failure => cases hresponse
  | ok reply =>
      change (library.replyBytes reply).map _ = .ok response at hresponse
      cases hbytes : library.replyBytes reply with
      | error failure =>
          rw [hbytes] at hresponse
          cases hresponse
      | ok body =>
          rw [hbytes] at hresponse
          cases hresponse
          refine ⟨hlawful.replyStatus reply, ?_, ?_⟩
          · intro header hheader
            exact hlawful.replyHeader reply header.1 header.2 (mem_texts hheader)
          · exact Nat.lt_of_le_of_lt (length_texts_le _) (hroomy reply rfl)

variable {proxy}

theorem takes_of_forward (hlawful : library.Lawful) {request : Request}
    {answer : Except String library.Reply} (hroomy : Roomy answer) {response : Response}
    (hforward : proxy.forward request answer = .ok response) : library.Takes 1 response := by
  unfold forward at hforward
  cases hcall : proxy.toCall request with
  | error failure =>
      rw [hcall] at hforward
      cases hforward
  | ok call =>
      rw [hcall] at hforward
      exact takes_of_toResponse hlawful hroomy hforward

/-- There is room for the tag in what the router is given. -/
theorem read_plain (hlawful : library.Lawful)
    (hreplies : ∀ id answer, .backend id answer ∈ events → Roomy answer) (event : Event library)
    (hevent : event ∈ events) (pool : Pool σ) (fed : Pool.Event)
    (hread : proxy.read pool event = .ok (some fed)) : fed.Plain (library.Takes 1) := by
  rintro id response rfl
  cases event with
  | request parts body nowMs =>
      obtain ⟨bytes, -, hevent⟩ := Option.map_eq_some_iff.mp (Except.ok.inj hread)
      cases hevent
  | proceed => cases hread
  | backend own answer =>
      obtain ⟨rfl, hforwarded⟩ := Pool.Event.returned.inj (Option.some.inj (Except.ok.inj hread))
      have hroom := hreplies own answer hevent
      split at hforwarded
      next => exact takes_of_forward hlawful hroom hforwarded
      next => exact takes_of_toResponse hlawful hroom hforwarded
  | prune => cases hread

theorem id_shows (notice : Notice) : (proxy.shows notice).id = some notice.id := by
  cases notice <;> rfl

/-- No response fails to be made. -/
theorem panic_shows (hlawful : library.Lawful) (notice : Notice) :
    (proxy.shows notice).panic = none := by
  cases notice with
  | accepted => rfl
  | called => rfl
  | answered id response =>
      obtain ⟨outgoing, hmade⟩ := hlawful.toAxumResponse_ok response
      rw [shows, hmade]
      rfl

theorem refusal_eq (hlawful : library.Lawful) :
    ∃ outgoing, (refusal : Output library) = .refused (.ok outgoing) ∧
      library.Renders ⟨413, [], utf8 "request body too large"⟩ outgoing := by
  obtain ⟨outgoing, hmade, hrenders⟩ := hlawful.textResponse_ok
    (hlawful.ownStatus 413 (by decide)) "request body too large"
  exact ⟨outgoing, by rw [refusal, hmade], hrenders⟩

/-! ## Runs -/

section Runs

variable [Store σ]

/-- What the steps of the process do. -/
abbrev Steps (proxy : Proxy library) (hash : String → UInt64) :
    Pool σ → Event library → Option (Output library) → Pool σ → Prop :=
  Pool.Fed hash refusal proxy.shows proxy.read

theorem step_eq (hlawful : library.Lawful) (proxy : Proxy library) (hash : String → UInt64)
    (pool : Pool σ) (event : Event library) :
    proxy.step hash pool event = pool.feed hash refusal proxy.shows (proxy.read pool event) := by
  cases hfeed : pool.feed hash refusal proxy.shows (proxy.read pool event) with
  | error panic =>
      rw [step, hfeed]
      rfl
  | ok result =>
      obtain ⟨output, next⟩ := result
      have hquiet : output.bind Output.panic = none := by
        obtain rfl | ⟨notice, rfl⟩ := Pool.feed_output hash refusal proxy.shows hfeed
        · obtain ⟨outgoing, hmade, -⟩ := refusal_eq hlawful
          rw [hmade]
          rfl
        · cases notice with
          | none => rfl
          | some notice => exact panic_shows hlawful notice
      simp only [step, hfeed, bind, Except.bind, hquiet]

variable [LawfulStore σ]

theorem path (hlawful : library.Lawful) (hproper : pool.Proper hash)
    (hrun : runSteps (proxy.step hash) pool events = .ok (log, last)) :
    Path (proxy.Steps hash) pool events log last ∧ last.Proper hash :=
  Pool.feed_path (step_eq hlawful proxy hash) hproper hrun

omit [LawfulStore σ] in
/-- What has been done for a request, as the log has it. -/
theorem mem_log (hpath : Path (proxy.Steps hash) ⟨router, []⟩ events log last) {id : Nat}
    {job : Job} (hjob : last.jobs[id]? = some job) {output : Output library}
    (hid : output.id = some id) :
    some output ∈ log ↔ ∃ notice ∈ job.told id, proxy.shows notice = output :=
  Pool.mem_outputs_iff rfl id_shows hpath hjob hid

end Runs

end Proxy

/-! ## Two charges -/

/-- Libraries that take everything, and hand it over as it is. -/
def verbatim : Library where
  Parts := Request
  Body := List UInt8
  Method := List UInt8
  Reply := Response
  Outgoing := Response
  method := Request.method
  pathAndQuery request := some request.target
  headers request := request.headers.map fun (name, text) => (name, some text)
  toBytes body limit := if body.length ≤ limit then some body else none
  methodFromBytes := .ok
  replyStatus := Response.status
  replyHeaders reply := reply.headers.map fun (name, text) => (name, some text)
  replyBytes reply := .ok reply.body
  build := some
  status := Response.status
  values response name :=
    (response.headers.filter fun header => eqIgnoreAsciiCase header.1 name).map Prod.snd
  body := Response.body
  isStatus _ := True
  isHeader _ := True
  room := 3

def till : Proxy verbatim := .withClient "127.0.0.1:9000" 8

end Onced.Fast
