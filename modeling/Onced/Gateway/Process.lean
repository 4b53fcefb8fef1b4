import Onced.Gateway.Leases
import Onced.Wal.ExactlyOnce

/-! # A gateway process over its log files

A process opens one log file for each of its shards; a file is named by the number
of its shard and nothing else. A panic inside a section ends the process (it is
built to abort), and a restart goes on from what the files hold, with as many
shards as it is told to have. Requests that were under way are gone by then. On
the side of the records, a process is a ledger for each file.
-/

namespace Onced

open Foundation Wal

/-- A gateway process, or what is left of it. -/
structure Process where
  router : Router WalStore
  /-- The log files when the process started; a file that does not exist is empty. -/
  disk : Nat → List UInt8
  /-- No section has panicked. -/
  running : Bool

/-- A section panics, and the process ends there. -/
def Router.Entered.panicked (entered : Router.Entered) : Bool :=
  match entered.handled.reply with
  | .panicked _ => true
  | _ => false

theorem Router.Entered.not_panicked {entered : Router.Entered} (halive : (!entered.panicked) = true)
    (panic : Panic) : entered.handled.reply ≠ .panicked panic := by
  intro hreply
  simp [Router.Entered.panicked, hreply] at halive

namespace Process

def leaseMs : UInt64 := 30000

def perIpPerSecond : Abuse.RuleSet :=
  Abuse.RuleSet.new.rule "per-ip-per-second" 1000 50 .throttle id Abuse.RuleSet.second_ne_zero

/-- What the log file of that number holds. -/
def file (process : Process) (index : Nat) : List UInt8 :=
  match process.router.shards[index]? with
  | some shard => shard.gateway.engine.store.disk
  | none => process.disk index

/-- An engine over its own log file, in strict mode. -/
def openShard (fingerprintKey : Bytes32) (bytes : List UInt8) :
    Except InvalidData (Gateway WalStore) := do
  let store ← WalStore.openWith bytes true
  return (Gateway.new (Engine.new store leaseMs)).withFingerprintKey fingerprintKey

/-- The loop that opens one shard for each of the first log files. -/
def openShards (fingerprintKey : Bytes32) (disk : Nat → List UInt8) :
    Nat → Except InvalidData (List (Gateway WalStore))
  | 0 => .ok []
  | count + 1 => do
      let gateways ← openShards fingerprintKey disk count
      let gateway ← openShard fingerprintKey (disk count)
      return gateways ++ [gateway]

/-- Start a process with this many shards. The count is never zero: a setting of zero
is ignored. -/
def start (fingerprintKey : Bytes32) (count : ℕ+) (disk : Nat → List UInt8) :
    Except InvalidData Process := do
  let gateways ← openShards fingerprintKey disk count
  return ⟨⟨gateways.map .fresh, List.replicate count perIpPerSecond, 0, 0⟩, disk, true⟩

/-- A locked section, or a restart with some number of shards. -/
inductive Event where
  | enter (event : Router.Event)
  | restart (count : ℕ+)

/-- A process that has ended takes no part in anything until it is restarted. -/
def step (hash : String → UInt64) (fingerprintKey : Bytes32) (process : Process) :
    Event → Except InvalidData (Option Router.Entered × Process)
  | .enter event =>
      if process.running then
        match process.router.step hash event with
        | .ok (entered, router) =>
            .ok (some entered, { process with router := router, running := !entered.panicked })
        | .error impossible => nomatch impossible
      else .ok (none, process)
  | .restart count =>
      (start fingerprintKey count process.file).map fun next => (none, next)

/-- The engine call an event makes, and on which shard. -/
def call (hash : String → UInt64) (process : Process) : Event → Option (Nat × EngineCall)
  | .enter event =>
      if process.running then
        (process.router.shards[(process.router.enters hash event).1]?).bind fun shard =>
          (shard.call (process.router.enters hash event).2.1).map
            ((process.router.enters hash event).1, ·)
      else none
  | .restart _ => none

/-- How many shards there are after an event. -/
def countAfter (process : Process) : Event → Nat
  | .enter _ => process.router.shards.length
  | .restart count => count

/-- The records an event may write fit their length field. -/
def Fits (hash : String → UInt64) (process : Process) (event : Event) : Prop :=
  ∀ index call, process.call hash event = some (index, call) → call.Fits

/-! ## The records behind the files -/

def setup : Setup := ⟨true, leaseMs, defaultTtlMs⟩

/-- Each file holds the records of its ledger, and the shard that has it open works on
that ledger. A ticket is under way on the shard that owns its key. -/
structure Represents (hash : String → UInt64) (fingerprintKey : Bytes32) (process : Process)
    (points : Nat → Point) : Prop where
  nonempty : 0 < process.router.shards.length
  shards : process.running = true → ∀ index shard, process.router.shards[index]? = some shard →
    Node.Represents setup shard.gateway.engine (points index)
  files : ∀ index, OpensTo (process.file index) (points index).ledger.durable
  settled : ∀ index, (points index).ledger.buffered = []
  fingerprintKey : ∀ shard ∈ process.router.shards, shard.gateway.fingerprintKey = fingerprintKey
  owned : ∀ index shard, process.router.shards[index]? = some shard → ∀ forward,
    some forward ∈ shard.forwards → ∀ token, forward.ticket.token = some token →
      process.router.shardForKey hash token.key.val = index

/-- What an event does to the ledgers. -/
inductive Shifts (hash : String → UInt64) (process : Process) (points : Nat → Point) :
    Event → Option Router.Entered → (Nat → Point) → Prop where
  | rests {event : Event} {entered : Option Router.Entered}
      (hentry : ∀ one, entered = some one → one.handled.entry = none) :
      Shifts hash process points event entered points
  | calls {event : Router.Event} {index : Nat} {call : EngineCall} {io : Io}
      {answer : Option Answer} {reply : Reply} {next : Point}
      (hcall : process.call hash (.enter event) = some (index, call))
      (hpanicked : answer = none → ∃ panic, reply = .panicked panic)
      (hmove : Point.Moves setup (points index) (.call io call) answer next) :
      Shifts hash process points (.enter event)
        (some ⟨index, reply, answer.map fun given => (call, given)⟩)
        (Function.update points index next)
  | restarts (count : ℕ+) :
      Shifts hash process points (.restart count) none fun index =>
        if index < count then Point.restart (points index).ledger.durable else points index

/-! ## Starting -/

section Starts

variable {fingerprintKey : Bytes32} {disk : Nat → List UInt8} {records : Nat → List Entry}

theorem openShard_represents {bytes : List UInt8} {entries : List Entry}
    (hopens : OpensTo bytes entries) (fingerprintKey : Bytes32) :
    ∃ gateway, openShard fingerprintKey bytes = .ok gateway ∧
      Node.Represents setup gateway.engine (Point.restart entries) ∧
      gateway.fingerprintKey = fingerprintKey := by
  obtain ⟨store, hopen, hmode, hstore⟩ := hopens true
  refine ⟨(Gateway.new (Engine.new store leaseMs)).withFingerprintKey fingerprintKey, ?_,
    ⟨hstore, hmode, rfl, rfl, ?_⟩, rfl⟩
  · simp [openShard, hopen, bind, Except.bind, pure, Except.pure]
  · change maxFence store.index + 1 = _
    rw [hstore.index, Ledger.records_settled]
    rfl

/-- Every shard comes up on the records of its file. -/
theorem openShards_represents (hopens : ∀ index, OpensTo (disk index) (records index))
    (fingerprintKey : Bytes32) (count : Nat) :
    ∃ gateways, openShards fingerprintKey disk count = .ok gateways ∧
      gateways.length = count ∧ ∀ index gateway, gateways[index]? = some gateway →
        Node.Represents setup gateway.engine (Point.restart (records index)) ∧
          gateway.fingerprintKey = fingerprintKey := by
  induction count with
  | zero => exact ⟨[], rfl, rfl, fun _ _ hnone => by simp at hnone⟩
  | succ count ih =>
      obtain ⟨gateways, hgateways, hlength, hshards⟩ := ih
      obtain ⟨gateway, hgateway, hrep⟩ := openShard_represents (hopens count) fingerprintKey
      refine ⟨gateways ++ [gateway], ?_, by simp [hlength], fun index other hother => ?_⟩
      · simp [openShards, hgateways, hgateway, bind, Except.bind, pure, Except.pure]
      · rcases Nat.lt_or_ge index gateways.length with hold | hnew
        · rw [List.getElem?_append_left hold] at hother
          exact hshards index other hother
        · rw [List.getElem?_append_right hnew] at hother
          obtain ⟨hbound, rfl⟩ := List.getElem?_eq_some_iff.mp hother
          obtain rfl : index = count := by
            simp only [List.length_singleton] at hbound
            omega
          simpa using hrep

/-- A process comes up on the records of its files. -/
theorem start_represents (hash : String → UInt64) {points : Nat → Point} (count : ℕ+)
    (hopens : ∀ index, OpensTo (disk index) (points index).ledger.durable)
    (hsettled : ∀ index, (points index).ledger.buffered = [])
    (hfresh : ∀ index < (count : Nat),
      points index = Point.restart (points index).ledger.durable) (fingerprintKey : Bytes32) :
    ∃ process, start fingerprintKey count disk = .ok process ∧
      process.router.shards.length = count ∧ process.running = true ∧ process.disk = disk ∧
      (∀ shard ∈ process.router.shards, shard.forwards = []) ∧
      process.Represents hash fingerprintKey points := by
  obtain ⟨gateways, hgateways, hlength, hshards⟩ :=
    openShards_represents hopens fingerprintKey count
  have hrep : ∀ index (shard : Shard WalStore), (gateways.map Shard.fresh)[index]? = some shard →
      Node.Represents setup shard.gateway.engine (points index) ∧
        shard.gateway.fingerprintKey = fingerprintKey ∧ shard.forwards = [] := by
    intro index shard hshard
    rw [List.getElem?_map] at hshard
    obtain ⟨gateway, hgateway, rfl⟩ := Option.map_eq_some_iff.mp hshard
    have hbound : index < count := hlength ▸ (List.getElem?_eq_some_iff.mp hgateway).1
    rw [hfresh index hbound]
    exact ⟨(hshards index gateway hgateway).1, (hshards index gateway hgateway).2, rfl⟩
  refine ⟨⟨⟨gateways.map .fresh, List.replicate count perIpPerSecond, 0, 0⟩, disk, true⟩, ?_,
    by simp [hlength], rfl, rfl, fun shard hshard => ?_, ?_⟩
  · simp [start, hgateways, bind, Except.bind, pure, Except.pure]
  · obtain ⟨index, hindex⟩ := List.mem_iff_getElem?.mp hshard
    exact (hrep index shard hindex).2.2
  constructor
  case nonempty => simp [hlength]
  case shards => exact fun _ index shard hshard => (hrep index shard hshard).1
  case files =>
    intro index
    unfold file
    split
    next shard hshard => exact (hrep index shard hshard).1.store.opensTo_durable
    next => exact hopens index
  case settled => exact hsettled
  case fingerprintKey =>
    intro shard hshard
    obtain ⟨index, hindex⟩ := List.mem_iff_getElem?.mp hshard
    exact (hrep index shard hindex).2.1
  case owned =>
    intro index shard hshard forward hforward
    rw [(hrep index shard hshard).2.2] at hforward
    exact absurd hforward List.not_mem_nil

end Starts

/-! ## Steps -/

section Steps

variable {hash : String → UInt64} {fingerprintKey : Bytes32} {process : Process}
  {points : Nat → Point}

/-- Sections keep tickets on the shards that own their keys. -/
theorem Represents.owned_of_step (hrep : process.Represents hash fingerprintKey points)
    {event : Router.Event} {entered : Router.Entered} {router : Router WalStore}
    (hstep : process.router.step hash event = .ok (entered, router))
    (hlength : router.shards.length = process.router.shards.length) (index : Nat)
    (shard : Shard WalStore) (hshard : router.shards[index]? = some shard) (forward : Forward)
    (hforward : some forward ∈ shard.forwards) (token : RunToken)
    (htoken : forward.ticket.token = some token) :
    router.shardForKey hash token.key.val = index := by
  have howner : router.shardForKey hash token.key.val =
      process.router.shardForKey hash token.key.val := by
    simp only [Router.shardForKey, hlength]
  rw [howner]
  rcases Router.forwards_of_step hstep hshard hforward htoken with
    ⟨before, hbefore, hold⟩ | ⟨_, _, _, _, hplace⟩
  · exact hrep.owned index before hbefore forward hold token htoken
  · exact hplace

/-- A section that leaves the shard on some ledger. -/
theorem Represents.set (hrep : process.Represents hash fingerprintKey points)
    (hrunning : process.running = true) {index : Nat} {shard after : Shard WalStore}
    (hshard : process.router.shards[index]? = some shard) {point : Point} {alive : Bool}
    (halive : alive = true → Node.Represents setup after.gateway.engine point)
    (hopens : OpensTo after.gateway.engine.store.disk point.ledger.durable)
    (hsettled : point.ledger.buffered = [])
    (hkey : after.gateway.fingerprintKey = shard.gateway.fingerprintKey) {event : Router.Event}
    {entered : Router.Entered} {router : Router WalStore}
    (hstep : process.router.step hash event = .ok (entered, router))
    (hshards : router.shards = process.router.shards.set index after) :
    Represents hash fingerprintKey { process with router := router, running := alive }
      (Function.update points index point) := by
  have hbound := (List.getElem?_eq_some_iff.mp hshard).1
  have hlength : router.shards.length = process.router.shards.length := by
    rw [hshards, List.length_set]
  have hfind : ∀ other, router.shards[other]? =
      if index = other then some after else process.router.shards[other]? := by
    intro other
    simp only [hshards, List.getElem?_set, hbound, if_true]
  constructor
  case nonempty => exact hlength ▸ hrep.nonempty
  case shards =>
    intro hstays other found hfound
    rw [hfind] at hfound
    by_cases hhere : index = other
    · subst hhere
      rw [if_pos rfl] at hfound
      obtain rfl := Option.some.inj hfound
      rw [Function.update_self]
      exact halive hstays
    · rw [if_neg hhere] at hfound
      rw [Function.update_of_ne (Ne.symm hhere)]
      exact hrep.shards hrunning other found hfound
  case files =>
    intro other
    simp only [file, hfind]
    by_cases hhere : index = other
    · subst hhere
      rw [if_pos rfl, Function.update_self]
      exact hopens
    · rw [if_neg hhere, Function.update_of_ne (Ne.symm hhere)]
      exact hrep.files other
  case settled =>
    intro other
    by_cases hhere : other = index
    · subst hhere
      rw [Function.update_self]
      exact hsettled
    · rw [Function.update_of_ne hhere]
      exact hrep.settled other
  case fingerprintKey =>
    intro found hfound
    rw [hshards] at hfound
    rcases List.mem_or_eq_of_mem_set hfound with hold | rfl
    · exact hrep.fingerprintKey found hold
    · exact hkey.trans (hrep.fingerprintKey shard (List.mem_of_getElem? hshard))
  case owned => exact hrep.owned_of_step hstep hlength

/-- A section on no shard leaves everything where it is. -/
theorem Represents.same_shards (hrep : process.Represents hash fingerprintKey points)
    (hrunning : process.running = true) {alive : Bool} {event : Router.Event}
    {entered : Router.Entered} {router : Router WalStore}
    (hstep : process.router.step hash event = .ok (entered, router))
    (hshards : router.shards = process.router.shards) :
    Represents hash fingerprintKey { process with router := router, running := alive } points := by
  constructor
  case nonempty => exact hshards ▸ hrep.nonempty
  case shards =>
    intro _ index shard hshard
    exact hrep.shards hrunning index shard (hshards ▸ hshard)
  case files =>
    intro index
    simp only [file, hshards]
    exact hrep.files index
  case settled => exact hrep.settled
  case fingerprintKey => exact fun shard hshard => hrep.fingerprintKey shard (hshards ▸ hshard)
  case owned => exact hrep.owned_of_step hstep (by rw [hshards])

/-- What a section on a shard does to the ledger under it: nothing, or what its engine
call does. The shard goes on from there unless the section panics. -/
theorem ledger_of_does {shard after : Shard WalStore} {event : ShardEvent} {handled : Handled}
    {point : Point} (hdoes : shard.Does event handled after)
    (hnode : Node.Represents setup shard.gateway.engine point)
    (hsettled : point.ledger.buffered = [])
    (hfits : ∀ call, shard.call event = some call → call.Fits) :
    ∃ next : Point, OpensTo after.gateway.engine.store.disk next.ledger.durable ∧
      next.ledger.buffered = [] ∧
      ((∀ panic, handled.reply ≠ .panicked panic) →
        Node.Represents setup after.gateway.engine next) ∧
      (handled.entry = none ∧ next = point ∨
        ∃ call answer, shard.call event = some call ∧
          handled.entry = answer.map (fun given => (call, given)) ∧
          (answer = none → ∃ panic, handled.reply = .panicked panic) ∧
          Point.Moves setup point (.call event.io call) answer next) := by
  cases hdoes with
  | passes hcall hengine _ _ =>
      rw [← hengine] at hnode
      exact ⟨point, hnode.store.opensTo_durable, hsettled, fun _ => hnode, Or.inl ⟨rfl, rfl⟩⟩
  | @returns call answer reply _ hcall hrun _ _ _ =>
      rcases hnode.call_refines (hfits call hcall) event.io with
        ⟨engine, hok, hnext⟩ | ⟨panic, dead, _, _, herror, -⟩
      · obtain ⟨rfl, rfl⟩ := EStateM.Result.ok.inj (hrun.symm.trans hok)
        have hmove : Point.Moves setup point (.call event.io call) _ _ := .returns _ _ call
        exact ⟨_, hnext.store.opensTo_durable, (hmove.strict rfl hsettled).1, fun _ => hnext,
          Or.inr ⟨call, some (point.plan setup call).answer, hcall, rfl, nofun, hmove⟩⟩
      · cases hrun.symm.trans herror
  | @panics call panic _ hcall hrun _ _ =>
      rcases hnode.call_refines (hfits call hcall) event.io with
        ⟨engine, hok, -⟩ | ⟨_, _, storeCall, records, herror, hplan, hio, hsurvives, -, -, -,
          hopens⟩
      · cases hrun.symm.trans hok
      · obtain ⟨rfl, rfl⟩ := EStateM.Result.error.inj (hrun.symm.trans herror)
        -- nobody uses this engine again, but its file opens to what survived
        have hmove : Point.Moves setup point (.call event.io call) none (Point.restart records) :=
          .dies hplan hio hsurvives
        exact ⟨_, hopens, rfl, fun hquiet => absurd rfl (hquiet panic),
          Or.inr ⟨call, none, hcall, rfl, fun _ => ⟨panic, rfl⟩, hmove⟩⟩

/-- A section does to the ledger of its shard what its engine call does. -/
theorem section_refines (hrep : process.Represents hash fingerprintKey points)
    {event : Router.Event} (hfits : process.Fits hash (.enter event)) :
    ∃ entered next nexts, process.step hash fingerprintKey (.enter event) = .ok (entered, next) ∧
      Shifts hash process points (.enter event) entered nexts ∧
      next.Represents hash fingerprintKey nexts ∧
      next.router.shards.length = process.router.shards.length := by
  cases hrunning : process.running with
  | false =>
      refine ⟨none, process, points, by simp [step, hrunning], ?_, hrep, rfl⟩
      exact .rests fun _ hnone => nomatch hnone
  | true =>
      obtain ⟨entered, router, hstep, hindex, hcases⟩ :=
        @Router.step_eq _ _ hash process.router event
      have hprocess : process.step hash fingerprintKey (.enter event) = .ok (some entered,
          { process with router := router, running := !entered.panicked }) := by
        simp only [step, hrunning, if_true, hstep]
      rcases hcases with ⟨hentry, hshards⟩ | ⟨shard, after, hshard, hshardStep, hshards⟩
      · refine ⟨_, _, points, hprocess, .rests fun one hone => ?_,
          hrep.same_shards hrunning hstep hshards, by rw [hshards]⟩
        obtain rfl := Option.some.inj hone
        exact hentry
      · have hmade : ∀ call, shard.call (process.router.enters hash event).2.1 = some call →
            process.call hash (.enter event) =
              some ((process.router.enters hash event).1, call) := by
          intro call hcall
          simp [Process.call, hrunning, hshard, hcall]
        have hdoes := Shard.does_of_step hshardStep
        obtain ⟨point, hopens, hsettled, halive, hmoves⟩ := ledger_of_does hdoes
          (hrep.shards hrunning _ shard hshard) (hrep.settled _)
          (fun call hcall => hfits _ _ (hmade call hcall))
        have hnext := hrep.set hrunning hshard
          (fun hgoes => halive (Router.Entered.not_panicked hgoes))
          hopens hsettled hdoes.keeps.fingerprintKey hstep hshards
        refine ⟨_, _, _, hprocess, ?_, hnext, by rw [hshards, List.length_set]⟩
        rcases hmoves with ⟨hentry, rfl⟩ | ⟨call, answer, hcall, hentry, hpanicked, hmove⟩
        · rw [Function.update_eq_self]
          refine .rests fun one hone => ?_
          obtain rfl := Option.some.inj hone
          exact hentry
        · obtain ⟨index, reply, entry⟩ := entered
          obtain rfl : index = (process.router.enters hash event).1 := hindex
          obtain rfl : entry = answer.map fun given => (call, given) := hentry
          exact .calls (hmade call hcall) hpanicked hmove

/-- Every event takes the process from ledgers to ledgers. -/
theorem step_refines (hrep : process.Represents hash fingerprintKey points) {event : Event}
    (hfits : process.Fits hash event) :
    ∃ entered next nexts, process.step hash fingerprintKey event = .ok (entered, next) ∧
      Shifts hash process points event entered nexts ∧
      next.Represents hash fingerprintKey nexts ∧
      next.router.shards.length = process.countAfter event := by
  cases event with
  | enter event => exact section_refines hrep hfits
  | restart count =>
      have hopens : ∀ index, OpensTo (process.file index) (if index < (count : Nat) then
          Point.restart (points index).ledger.durable else points index).ledger.durable := by
        intro index
        split
        next => exact hrep.files index
        next => exact hrep.files index
      obtain ⟨next, hstart, hlength, -, -, -, hnext⟩ := start_represents hash count hopens
        (fun index => by
          split
          next => rfl
          next => exact hrep.settled index)
        (fun index hindex => by
          rw [if_pos hindex]
          rfl) fingerprintKey
      exact ⟨none, next, _, by rw [step, hstart]; rfl, .restarts count, hnext, hlength⟩

end Steps

/-! ## The record of one key -/

section Records

variable {hash : String → UInt64} {fingerprintKey : Bytes32} {process : Process}
  {points nexts : Nat → Point} {event : Event} {entered : Option Router.Entered} {owner : Nat}
  {key : IdempotencyKey} {fingerprint : RequestFingerprint} {outcome : CachedOutcome}
  {completedAtMs : UInt64}

/-- An outcome on file outlasts every event that comes before it expires. -/
theorem Shifts.keeps (hshifts : Shifts hash process points event entered nexts)
    (hsettled : (points owner).ledger.buffered = [])
    (hstate : (points owner).states key = some (.completed fingerprint outcome completedAtMs))
    (hlive : ∀ call, process.call hash event = some (owner, call) →
      ¬ call.Expires key (saturatingAdd completedAtMs setup.ttlMs)) :
    (nexts owner).states key = some (.completed fingerprint outcome completedAtMs) := by
  have halways : (points owner).ledger.Always
      (completedRecord key fingerprint outcome completedAtMs) := .of_buffered_nil hsettled hstate
  cases hshifts with
  | rests => exact hstate
  | @calls event index call io answer reply next hcall _ hmove =>
      by_cases hhere : owner = index
      · subst hhere
        rw [Function.update_self]
        have hspares : ¬ Onced.Event.Expires key (saturatingAdd completedAtMs setup.ttlMs)
            (.call io call) := hlive call hcall
        exact (moves_keeps_durable halways hspares hmove).now
      · rw [Function.update_of_ne hhere]
        exact hstate
  | restarts count =>
      simp only
      split
      next => exact (Ledger.Always.settled halways.durable).now
      next => exact hstate

/-- Without a ticket for the key, and without a panic, whatever run of the key is in
progress stays the one it was. -/
theorem Shifts.inProgress {event : Router.Event}
    (hshifts : Shifts hash process points (.enter event) entered nexts)
    (hrunning : ∀ one, entered = some one → one.panicked = false)
    (htickets : ∀ one, entered = some one → one.runs key = false)
    (hrun : ∀ fence other leaseExpiresAtMs,
      (points owner).states key = some (.inProgress fence other leaseExpiresAtMs) →
        other = fingerprint) (fence : Fence) (other : RequestFingerprint)
          (leaseExpiresAtMs : UInt64)
    (hstate : (nexts owner).states key = some (.inProgress fence other leaseExpiresAtMs)) :
    other = fingerprint := by
  cases hshifts with
  | rests => exact hrun fence other leaseExpiresAtMs hstate
  | @calls event index call io answer reply next hcall hpanicked hmove =>
      by_cases hhere : owner = index
      · subst hhere
        rw [Function.update_self] at hstate
        cases answer with
        | none =>
            obtain ⟨panic, rfl⟩ := hpanicked rfl
            exact absurd (hrunning _ rfl) (by simp [Router.Entered.panicked])
        | some given =>
            obtain ⟨rfl, rfl⟩ := hmove.returned
            rw [Point.states_after] at hstate
            rcases EngineCall.plan_effect_eq_some hstate with hput | hkept
            · cases hput with
              -- a start of the key would have handed out a ticket
              | @starts _ _ nowMs haction =>
                  have hanswer : ((points owner).plan setup (.begin key other nowMs)).answer =
                      .begun (.run ⟨key, ⟨(points owner).nextFence⟩⟩) :=
                    congrArg Plan.answer (EngineCall.plan_begin_start haction)
                  have hnone := htickets _ rfl
                  simp [Router.Entered.runs, Handled.ticketed, hanswer] at hnone
            · exact hrun fence other leaseExpiresAtMs hkept
      · rw [Function.update_of_ne hhere] at hstate
        exact hrun fence other leaseExpiresAtMs hstate

/-- As long as no completion of the key is accepted, its record holds no other outcome. -/
theorem Shifts.completed (hshifts : Shifts hash process points event entered nexts)
    (hsettled : (points owner).ledger.buffered = [])
    (hrefused : ∀ token response nowMs, process.call hash event =
      some (owner, .complete token response nowMs) → token.key = key →
      ∀ stored leaseExpiresAtMs, (points owner).states key ≠
        some (.inProgress token.fence stored leaseExpiresAtMs))
    (honly : ∀ stored other time,
      (points owner).states key = some (.completed stored other time) → other = outcome)
    (stored : RequestFingerprint) (other : CachedOutcome) (time : UInt64)
    (hstate : (nexts owner).states key = some (.completed stored other time)) :
    other = outcome := by
  cases hshifts with
  | rests => exact honly stored other time hstate
  | @calls event index call io answer reply next hcall _ hmove =>
      by_cases hhere : owner = index
      · subst hhere
        rw [Function.update_self] at hstate
        rcases (hmove.strict rfl hsettled).2 with hsame | ⟨_, _, storeCall, hevent, hplan, heffect⟩
        · rw [hsame] at hstate
          exact honly stored other time hstate
        · cases hevent
          rw [heffect] at hstate
          rcases StoreCall.effect_eq_some hstate with rfl | hkept
          · cases EngineCall.makes_of_plan hplan with
            | @commits token _ leaseExpiresAtMs hholder _ _ =>
                exact absurd hholder (hrefused token _ _ hcall rfl _ _)
          · exact honly stored other time hkept
      · rw [Function.update_of_ne hhere] at hstate
        exact honly stored other time hstate
  | restarts count =>
      simp only at hstate
      split at hstate
      next =>
        rw [Point.states, Point.restart, Ledger.records_settled,
          ← Ledger.records_of_buffered_nil hsettled] at hstate
        exact honly stored other time hstate
      next => exact honly stored other time hstate

end Records

end Process

end Onced
