import Onced.Core.Serving
import Onced.Wal.Replicas
import Onced.Wal.Transparency

/-! # Failover to a surviving node

When the other nodes are lost, an engine is built over the log of any one that is
left. Every node holds what the primary reads, so the new engine finds the states
of the old one. It seeds its fence counter from the records in progress, which
keeps it disciplined: until the counter of the old engine has gone all the way
round, the two answer alike up to fences.
-/

namespace Onced.ReplicatedStore

open Wal Foundation

/-- Every node is settled and knows what the primary knows. -/
structure Synced (store : ReplicatedStore WalStore) : Prop where
  settled : ∀ replica ∈ store.replicas, Settled replica
  agree : store.Agree

theorem synced_fresh (seed : Iteration → Iteration) (seeds : List (Iteration → Iteration)) :
    (fresh true seed seeds).Synced := by
  refine ⟨(follows_fresh seed seeds).settled, fun replica hreplica => ?_⟩
  rw [store_of_mem_fresh hreplica]
  rfl

theorem Synced.run {store next : ReplicatedStore WalStore} (hsynced : store.Synced)
    {storeCall : StoreCall} (hfits : storeCall.Fits)
    (hrun : storeCall.run .done store = .ok () next) : next.Synced := by
  refine ⟨fun replica hreplica => ?_, hsynced.agree.run hrun⟩
  obtain ⟨before, hbefore, hran⟩ := exists_mem_of_forall₂ (ran_of_run hrun) hreplica
  exact (hsynced.settled before hbefore).ran hfits hran

/-! ## Sessions over replicated logs -/

/-- An engine over nodes on empty logs. -/
def begun (seed : Iteration → Iteration) (seeds : List (Iteration → Iteration))
    (leaseMs ttlMs : UInt64) : Session (Engine (ReplicatedStore WalStore)) :=
  .start (Engine.withTtl (fresh true seed seeds) leaseMs ttlMs)

/-- Build an engine over the log of one node. The tokens that were handed out are
still with the workers. -/
def promote (session : Session (Engine (ReplicatedStore WalStore))) (replica : Replica WalStore) :
    Except InvalidData (Session (Engine WalStore)) := do
  let store ← WalStore.openWith replica.store.disk true
  return { session with node := Engine.withTtl store session.node.leaseMs session.node.ttlMs }

/-- What the operation writes fits a record. -/
def Fitting {ν : Type} (session : Session ν) (operation : Operation) : Prop :=
  ∀ call ∈ operation.call session.issued, call.Fits

instance {ν : Type} (session : Session ν) (operation : Operation) :
    Decidable (Fitting session operation) :=
  inferInstanceAs (Decidable (∀ call ∈ operation.call session.issued, call.Fits))

/-- The nodes stay synced through an operation. -/
theorem Synced.ask {session : Session (Engine (ReplicatedStore WalStore))}
    (hsynced : session.node.store.Synced) {operation : Operation}
    (hfits : Fitting session operation) {answer : Option Answer}
    {next : Session (Engine (ReplicatedStore WalStore))}
    (hask : session.ask operation = .ok (answer, next)) : next.node.store.Synced := by
  cases hcall : operation.call session.issued with
  | none =>
      rw [Session.ask_skips hcall] at hask
      cases hask
      exact hsynced
  | some call =>
      obtain ⟨planned, hplanned, hrun, -⟩ := Session.ask_plans hcall
      cases hask.symm.trans hplanned
      rcases (Engine.run_eq_ok hrun).2 with ⟨-, hsame⟩ | ⟨storeCall, hplan, hstore⟩
      · rw [hsame]
        exact hsynced
      · exact hsynced.run (plan_fits (hfits call hcall) hplan) hstore

/-- The engine over a node that is left reads what the old engine reads, and counts
from the fences in progress. -/
theorem Synced.promote {session : Session (Engine (ReplicatedStore WalStore))}
    (hsynced : session.node.store.Synced) {replica : Replica WalStore}
    (hreplica : replica ∈ session.node.store.replicas) :
    ∃ survivor records, ReplicatedStore.promote session replica = .ok survivor ∧
      survivor.node.leaseMs = session.node.leaseMs ∧ survivor.node.ttlMs = session.node.ttlMs ∧
      survivor.view = ⟨session.issued, Store.get session.node.store,
        maxFence (Ledger.indexOf records) + 1⟩ ∧
      ∀ key, Store.get session.node.store key = (Ledger.indexOf records)[key]? := by
  obtain ⟨store, hopen, -, hindex, records, hrep⟩ := (hsynced.settled replica hreplica).opens
  have hstoreIndex : store.index = Ledger.indexOf records := by
    rw [hrep.index, Ledger.records_settled]
  have hstates : Store.get store = Store.get session.node.store := by
    rw [← hsynced.agree replica hreplica]
    funext key
    exact congrArg (fun index : Index => index[key]?) hindex
  refine ⟨{ session with node := Engine.withTtl store session.node.leaseMs session.node.ttlMs },
    records, ?_, rfl, rfl, ?_, fun key => ?_⟩
  · rw [ReplicatedStore.promote, hopen]
    rfl
  · rw [← hstates, ← hstoreIndex]
    rfl
  · rw [← hstates, ← hstoreIndex]
    rfl

/-! ## Up to fences -/

/-- A session whose nodes are synced and whose engine is disciplined. -/
structure Ready (session : Session (Engine (ReplicatedStore WalStore))) : Prop where
  synced : session.node.store.Synced
  disciplined : Disciplined session.view.issued session.view.states session.view.nextFence

theorem ready_begun (seed : Iteration → Iteration) (seeds : List (Iteration → Iteration))
    (leaseMs ttlMs : UInt64) : Ready (begun seed seeds leaseMs ttlMs) :=
  ⟨synced_fresh seed seeds, .empty fun _ => rfl⟩

/-- What the operation writes fits, no outcome has expired, and the counter is not
exhausted. -/
def Calm {σ : Type} [Store σ] (session : Session (Engine σ)) (operation : Operation) : Prop :=
  Fitting session operation ∧ session.Steady operation

theorem Ready.ask {session : Session (Engine (ReplicatedStore WalStore))} (hready : Ready session)
    {operation : Operation} (hcalm : Calm session operation) :
    ∃ answer next, session.ask operation = .ok (answer, next) ∧ Ready next := by
  have hpaired : session.Paired session :=
    ⟨rfl, rfl, hready.disciplined, hready.disciplined, rfl, fun _ => rfl⟩
  obtain ⟨answer, next, _, again, hask, hagain, -, hnext⟩ :=
    Session.lockstep_paired session session operation hpaired hcalm.2
  cases hask.symm.trans hagain
  exact ⟨answer, next, hask, hready.synced.ask hcalm.1 hask, hnext.twins.oneDisciplined⟩

theorem Ready.promote {session : Session (Engine (ReplicatedStore WalStore))}
    (hready : Ready session) {replica : Replica WalStore}
    (hreplica : replica ∈ session.node.store.replicas) :
    ∃ survivor, ReplicatedStore.promote session replica = .ok survivor ∧
      survivor.Paired session := by
  obtain ⟨survivor, records, hpromote, hlease, httl, hview, hstates⟩ :=
    hready.synced.promote hreplica
  refine ⟨survivor, hpromote, hlease, httl, ?_⟩
  rw [hview]
  exact ⟨reseeded hready.disciplined hstates, hready.disciplined, rfl, fun _ => rfl⟩

/-- Failover does not show: whichever node is left, an engine over its log answers
every later operation as the old engine would have, up to the fences of run tokens. -/
theorem failover_transparent (seed : Iteration → Iteration) (seeds : List (Iteration → Iteration))
    (leaseMs ttlMs : UInt64) (before later : List Operation)
    (hcalm : Along Session.ask Calm (begun seed seeds leaseMs ttlMs) (before ++ later)) :
    ∃ answers session,
      runSteps Session.ask (begun seed seeds leaseMs ttlMs) before = .ok (answers, session) ∧
      ∀ replica ∈ session.node.store.replicas,
        ∃ survivor survivorAnswers survivorLast laterAnswers last,
          promote session replica = .ok survivor ∧
          runSteps Session.ask survivor later = .ok (survivorAnswers, survivorLast) ∧
          runSteps Session.ask session later = .ok (laterAnswers, last) ∧
          survivorAnswers.map (Option.map Answer.unfenced) =
            laterAnswers.map (Option.map Answer.unfenced) := by
  obtain ⟨hbefore, hafter⟩ := along_append.mp hcalm
  have hstep : ∀ session operation, Ready session → Calm session operation →
      ∃ answer next, session.ask operation = .ok (answer, next) ∧ True ∧ Ready next := by
    intro session operation hready hcalm
    obtain ⟨answer, next, hask, hnext⟩ := hready.ask hcalm
    exact ⟨answer, next, hask, trivial, hnext⟩
  obtain ⟨answers, session, hrun, -, hready⟩ :=
    exists_path_of_invariant Ready hstep (ready_begun seed seeds leaseMs ttlMs) hbefore
  refine ⟨answers, session, hrun, fun replica hreplica => ?_⟩
  obtain ⟨survivor, hpromote, hpaired⟩ := hready.promote hreplica
  have hlockstep : Lockstep (Session.ask : Session (Engine WalStore) → Operation → _)
      (Session.ask : Session (Engine (ReplicatedStore WalStore)) → Operation → _) Session.Paired
      (fun answer other => answer.map Answer.unfenced = other.map Answer.unfenced) Calm :=
    Session.lockstep_paired.mono fun _ _ hcalm => hcalm.2
  obtain ⟨survivorAnswers, survivorLast, laterAnswers, last, hsurvivor, hlater, hagree, -⟩ :=
    hlockstep.run hpaired (hafter answers session hrun)
  refine ⟨survivor, survivorAnswers, survivorLast, laterAnswers, last, hpromote, hsurvivor,
    hlater, ?_⟩
  rw [← List.forall₂_eq_eq_eq, List.forall₂_map_left_iff, List.forall₂_map_right_iff]
  exact hagree

/-- Before any outcome expires, checked on an engine in memory. -/
def CalmInMemory (session : Session (Engine MemoryStore)) (operation : Operation) : Prop :=
  Fitting session operation ∧ InTime BeforeExpiry session.node operation ∧
    session.view.Roomy session.node.ttlMs operation

instance (session : Session (Engine MemoryStore)) (operation : Operation) :
    Decidable (CalmInMemory session operation) :=
  inferInstanceAs (Decidable (_ ∧ _ ∧ _))

theorem alike_memory (seed : Iteration → Iteration) (seeds : List (Iteration → Iteration))
    (leaseMs ttlMs : UInt64) :
    (begun seed seeds leaseMs ttlMs).Alike (Session.start (Memory.fresh leaseMs ttlMs)) :=
  ⟨rfl, rfl, rfl⟩

/-- A calm run can be checked on an engine in memory. -/
theorem calm_of_memory {seed : Iteration → Iteration} {seeds : List (Iteration → Iteration)}
    {leaseMs ttlMs : UInt64} {operations : List Operation}
    (hmemory : Along Session.ask CalmInMemory (Session.start (Memory.fresh leaseMs ttlMs))
      operations) :
    Along Session.ask Calm (begun seed seeds leaseMs ttlMs) operations := by
  refine (Session.lockstep_alike CalmInMemory).along ?_ (alike_memory seed seeds leaseMs ttlMs)
    hmemory
  rintro one other operation halike ⟨hfits, hinTime, hroomy⟩
  have htimely := timely_of_inTime hinTime
  have hissued : one.issued = other.issued := congrArg View.issued halike.view
  refine ⟨fun call hcall => hfits call (hissued ▸ hcall), ?_, ?_⟩
  · rw [halike.ttlMs, halike.view]
    exact htimely
  · rw [halike.ttlMs, halike.view]
    exact hroomy

/-- A worker completes a charge with the token it had from the lost primary. -/
theorem failover_transparent_charge :
    ∃ answers session,
      runSteps Session.ask (begun id [id] 10 100) [.begin ⟨"k"⟩ ⟨genesis⟩ 0] =
        .ok (answers, session) ∧
      ∀ replica ∈ session.node.store.replicas, ∃ survivor survivorAnswers survivorLast,
        promote session replica = .ok survivor ∧
        runSteps Session.ask survivor
          [.complete 0 ⟨200, ∅, []⟩ 1, .begin ⟨"k"⟩ ⟨genesis⟩ 2] =
            .ok (survivorAnswers, survivorLast) ∧
        survivorAnswers.map (Option.map Answer.unfenced) =
          [some (.completed (.ok ())), some (.begun (.replay ⟨200, ∅, []⟩))] := by
  obtain ⟨answers, session, hrun, hsurvivors⟩ := failover_transparent id [id] 10 100
    [.begin ⟨"k"⟩ ⟨genesis⟩ 0] [.complete 0 ⟨200, ∅, []⟩ 1, .begin ⟨"k"⟩ ⟨genesis⟩ 2]
    (calm_of_memory (by decide))
  refine ⟨answers, session, hrun, fun replica hreplica => ?_⟩
  obtain ⟨survivor, survivorAnswers, survivorLast, laterAnswers, last, hpromote, hsurvivor, hlater,
    hsame⟩ := hsurvivors replica hreplica
  refine ⟨survivor, survivorAnswers, survivorLast, hpromote, hsurvivor, hsame.trans ?_⟩
  -- the answers of the old engine are those of an engine in memory
  have hanything : ∀ (state : Session (Engine MemoryStore)) (operations : List Operation),
      Along Session.ask (fun _ _ => True) state operations := fun state _ =>
    along_of_forall (fun _ _ _ => trivial) state
  obtain ⟨_, _, _, memory, hagain, hmemory, -, halike⟩ :=
    (Session.lockstep_alike fun _ _ => True).run (alike_memory id [id] 10 100)
      (hanything _ [.begin ⟨"k"⟩ ⟨genesis⟩ 0])
  cases hrun.symm.trans hagain
  cases hmemory
  obtain ⟨_, _, _, _, hlaterAgain, hmemory, hagree, -⟩ :=
    (Session.lockstep_alike fun _ _ => True).run halike
      (hanything _ [.complete 0 ⟨200, ∅, []⟩ 1, .begin ⟨"k"⟩ ⟨genesis⟩ 2])
  cases hlater.symm.trans hlaterAgain
  cases hmemory
  rw [List.forall₂_eq_eq_eq] at hagree
  rw [hagree]
  rfl

/-! ## A counter that has gone all the way round -/

section Lapping

variable {σ : Type} [Store σ]

/-- A key is locked once, and another one `count` times, each time at once expired. -/
def lapping (count : Nat) : List Operation :=
  .begin ⟨"a"⟩ ⟨genesis⟩ 0 :: List.replicate count (.begin ⟨"b"⟩ ⟨genesis⟩ 0)

/-- The first key is locked again, and its first worker comes back. -/
def retaking : List Operation := [.begin ⟨"a"⟩ ⟨genesis⟩ 0, .complete 0 ⟨200, ∅, []⟩ 0]

/-- Two keys are in use, nothing is completed, and every lease has run out. -/
structure Idle (session : Session (Engine σ)) : Prop where
  leaseMs : session.node.leaseMs = 0
  names : ∀ issue ∈ session.issued, issue.token.key = ⟨"a"⟩ ∨ issue.token.key = ⟨"b"⟩
  running : ∀ key state, Store.get session.node.store key = some state →
    ∃ fence, state = .inProgress fence ⟨genesis⟩ 0

/-- The first key is locked by its first token, as it was issued. -/
structure Locked (session : Session (Engine σ)) : Prop extends Idle session where
  first : session.issued[0]? = some ⟨⟨⟨"a"⟩, ⟨1⟩⟩, ⟨genesis⟩⟩
  locked : Store.get session.node.store ⟨"a"⟩ = some (.inProgress ⟨1⟩ ⟨genesis⟩ 0)

/-- An idle key is locked again, under the next fence. -/
theorem Idle.begins [LawfulStore σ] {session : Session (Engine σ)} (hidle : Idle session)
    {key : IdempotencyKey} (hkey : key = ⟨"a"⟩ ∨ key = ⟨"b"⟩) :
    ∃ next, session.ask (.begin key ⟨genesis⟩ 0) =
        .ok (some (.begun (.run ⟨key, ⟨session.node.nextFence⟩⟩)), next) ∧ Idle next ∧
      next.view = ⟨session.issued ++ [⟨⟨key, ⟨session.node.nextFence⟩⟩, ⟨genesis⟩⟩],
        fun other => if key = other then
            some (.inProgress ⟨session.node.nextFence⟩ ⟨genesis⟩ 0)
          else Store.get session.node.store other, session.node.nextFence + 1⟩ := by
  have haction : Engine.action session.node.ttlMs ⟨genesis⟩ 0
      (Store.get session.node.store key) = .start := by
    cases hstate : Store.get session.node.store key with
    | none => rfl
    | some state =>
        obtain ⟨fence, rfl⟩ := hidle.running key state hstate
        exact Engine.action_takeover (UInt64.le_refl 0) _ _ fence
  have hplan : session.node.plan (.begin key ⟨genesis⟩ 0) =
      ⟨some (.put key (.inProgress ⟨session.node.nextFence⟩ ⟨genesis⟩ 0)),
        session.node.nextFence + 1, .begun (.run ⟨key, ⟨session.node.nextFence⟩⟩)⟩ := by
    rw [Engine.plan, EngineCall.plan_begin_start haction, hidle.leaseMs]
    rfl
  obtain ⟨next, hask, -, hview, hlease, -⟩ :=
    @Session.ask_plans σ _ _ session (.begin key ⟨genesis⟩ 0) _ rfl
  rw [hplan] at hask hview
  refine ⟨next, hask, ⟨hlease.trans hidle.leaseMs, ?_, ?_⟩, hview⟩
  · intro issue hissue
    have hissued : next.issued = session.issued ++ _ := congrArg View.issued hview
    rw [hissued] at hissue
    rcases List.mem_append.mp hissue with hold | hnew
    · exact hidle.names issue hold
    · obtain rfl := List.mem_singleton.mp hnew
      exact hkey
  · intro other state hstate
    have hstates : Store.get next.node.store other = if key = other then _ else _ :=
      congrFun (congrArg View.states hview) other
    rw [hstates] at hstate
    split at hstate
    next => exact ⟨_, (Option.some.inj hstate).symm⟩
    next => exact hidle.running other state hstate

/-- Locking the other key leaves the first one as it is. -/
theorem Locked.begins [LawfulStore σ] {session : Session (Engine σ)} (hlocked : Locked session) :
    ∃ answer next, session.ask (.begin ⟨"b"⟩ ⟨genesis⟩ 0) = .ok (answer, next) ∧ Locked next ∧
      next.node.nextFence = session.node.nextFence + 1 := by
  obtain ⟨next, hask, hidle, hview⟩ := hlocked.toIdle.begins (Or.inr rfl)
  have hissued : next.issued = session.issued ++ _ := congrArg View.issued hview
  refine ⟨_, next, hask, ⟨hidle, ?_, ?_⟩, congrArg View.nextFence hview⟩
  · have hbound := (List.getElem?_eq_some_iff.mp hlocked.first).1
    rw [hissued, List.getElem?_append_left hbound]
    exact hlocked.first
  · exact (congrFun (congrArg View.states hview) ⟨"a"⟩).trans hlocked.locked

/-- The first worker is let in again exactly if its fence comes up again. -/
theorem Locked.retakes [LawfulStore σ] {session : Session (Engine σ)} (hlocked : Locked session) :
    ∃ last, runSteps Session.ask session retaking =
      .ok ([some (.begun (.run ⟨⟨"a"⟩, ⟨session.node.nextFence⟩⟩)),
        some (.completed (if session.node.nextFence = 1 then .ok () else .error .staleFence))],
        last) := by
  obtain ⟨next, hask, hidle, hview⟩ := hlocked.toIdle.begins (Or.inl rfl)
  have hissued : next.issued = session.issued ++ _ := congrArg View.issued hview
  have hfirst : next.issued[0]? = some ⟨⟨⟨"a"⟩, ⟨1⟩⟩, ⟨genesis⟩⟩ := by
    have hbound := (List.getElem?_eq_some_iff.mp hlocked.first).1
    rw [hissued, List.getElem?_append_left hbound]
    exact hlocked.first
  have hstate : Store.get next.node.store ⟨"a"⟩ =
      some (.inProgress ⟨session.node.nextFence⟩ ⟨genesis⟩ 0) :=
    congrFun (congrArg View.states hview) ⟨"a"⟩
  have hcall : (Operation.complete 0 ⟨200, ∅, []⟩ 0).call next.issued =
      some (.complete ⟨⟨"a"⟩, ⟨1⟩⟩ ⟨200, ∅, []⟩ 0) := by
    simp only [Operation.call, hfirst, Option.map_some]
  obtain ⟨last, hcomplete, -⟩ := Session.ask_plans hcall
  have hanswer : (next.node.plan (.complete ⟨⟨"a"⟩, ⟨1⟩⟩ ⟨200, ∅, []⟩ 0)).answer =
      .completed (if session.node.nextFence = 1 then .ok () else .error .staleFence) := by
    by_cases hfence : session.node.nextFence = 1
    · rw [hfence] at hstate
      rw [Engine.plan, EngineCall.plan_complete_holder hstate, if_pos hfence]
    · have hother : (⟨session.node.nextFence⟩ : Fence) ≠ ⟨1⟩ := fun hsame =>
        hfence (congrArg Fence.val hsame)
      simp only [Engine.plan, EngineCall.plan, hstate, if_neg hother, if_neg hfence]
  rw [hanswer] at hcomplete
  refine ⟨last, ?_⟩
  rw [retaking, runSteps_cons_ok hask, runSteps_cons_ok hcomplete]
  rfl

end Lapping

theorem idle_begun : Idle (begun id [id] 0 100) :=
  ⟨rfl, fun _ hissue => absurd hissue List.not_mem_nil, fun _ _ hstate => nomatch hstate⟩

theorem locked_run {session : Session (Engine (ReplicatedStore WalStore))}
    (hlocked : Locked session) (hsynced : session.node.store.Synced) (count : Nat) :
    ∃ answers last, runSteps Session.ask session
        (List.replicate count (.begin ⟨"b"⟩ ⟨genesis⟩ 0)) = .ok (answers, last) ∧
      Locked last ∧ last.node.store.Synced ∧
      last.node.nextFence = session.node.nextFence + UInt64.ofNat count := by
  induction count generalizing session with
  | zero => exact ⟨[], session, rfl, hlocked, hsynced, (UInt64.add_zero _).symm⟩
  | succ count ih =>
      obtain ⟨answer, next, hask, hnext, hcounter⟩ := hlocked.begins
      have hfits : Fitting session (.begin ⟨"b"⟩ ⟨genesis⟩ 0) := by
        rintro _ ⟨⟩
        decide
      obtain ⟨answers, last, hrest, hlast, hlastSynced, hlastCounter⟩ :=
        ih hnext (hsynced.ask hfits hask)
      refine ⟨answer :: answers, last, ?_, hlast, hlastSynced, ?_⟩
      · rw [List.replicate_succ, runSteps_cons_ok hask, hrest]
        rfl
      · rw [hlastCounter, hcounter, UInt64.add_assoc, UInt64.ofNat_add,
          UInt64.add_comm (UInt64.ofNat count)]
        rfl

/-- What the operation writes fits, and no outcome has expired. -/
def InTimeAsked (session : Session (Engine (ReplicatedStore WalStore))) (operation : Operation) :
    Prop :=
  Fitting session operation ∧ session.view.Timely session.node.ttlMs operation

theorem Idle.timely {session : Session (Engine (ReplicatedStore WalStore))} (hidle : Idle session)
    (operation : Operation) : session.view.Timely session.node.ttlMs operation := by
  intro nowMs _ key fingerprint outcome completedAtMs hstate
  obtain ⟨fence, hrunning⟩ := hidle.running key _ hstate
  cases hrunning

theorem lapping_inTime (count : Nat) :
    Along Session.ask InTimeAsked (begun id [id] 0 100) (lapping count ++ retaking) := by
  have hbegins : ∀ operation ∈ lapping count ++ [.begin ⟨"a"⟩ ⟨genesis⟩ 0],
      ∃ key, (key = ⟨"a"⟩ ∨ key = ⟨"b"⟩) ∧ operation = .begin key ⟨genesis⟩ 0 := by
    intro operation hoperation
    rcases List.mem_append.mp hoperation with hlapping | hlast
    · rcases List.mem_cons.mp hlapping with rfl | hmore
      · exact ⟨⟨"a"⟩, Or.inl rfl, rfl⟩
      · exact ⟨⟨"b"⟩, Or.inr rfl, List.eq_of_mem_replicate hmore⟩
    · exact ⟨⟨"a"⟩, Or.inl rfl, List.mem_singleton.mp hlast⟩
  have hkeeps : ∀ operation ∈ lapping count ++ [.begin ⟨"a"⟩ ⟨genesis⟩ 0],
      ∀ (session : Session (Engine (ReplicatedStore WalStore))) answer next, Idle session →
      session.ask operation = .ok (answer, next) → Idle next := by
    intro operation hoperation session answer next hidle hask
    obtain ⟨key, hkey, rfl⟩ := hbegins operation hoperation
    obtain ⟨_, hbegins, hnext, -⟩ := hidle.begins hkey
    cases hask.symm.trans hbegins
    exact hnext
  have hsplit : lapping count ++ retaking =
      (lapping count ++ [.begin ⟨"a"⟩ ⟨genesis⟩ 0]) ++ [.complete 0 ⟨200, ∅, []⟩ 0] := by
    rw [List.append_assoc]
    rfl
  rw [hsplit]
  refine along_append.mpr ⟨along_of_invariant Idle ?_ hkeeps idle_begun, ?_⟩
  · intro operation hoperation session hidle
    obtain ⟨key, hkey, rfl⟩ := hbegins operation hoperation
    refine ⟨?_, hidle.timely _⟩
    rintro _ ⟨⟩
    rcases hkey with rfl | rfl <;> decide
  · intro answers session hrun
    have hidle : Idle session := runSteps_invariant Idle hkeeps idle_begun hrun
    refine ⟨⟨?_, hidle.timely _⟩, by split <;> trivial⟩
    intro call hcall
    obtain ⟨issue, hissue, rfl⟩ := Option.map_eq_some_iff.mp hcall
    have hfits : ∀ key : IdempotencyKey, key = ⟨"a"⟩ ∨ key = ⟨"b"⟩ →
        (EngineCall.complete ⟨key, ⟨0⟩⟩ ⟨200, ∅, []⟩ 0).Fits := by
      rintro _ (rfl | rfl) <;> decide
    exact hfits _ (hidle.names issue (List.mem_of_getElem? hissue))

/-- The first key is locked by the first call. -/
theorem locked_begun :
    ∃ first, Session.ask (begun id [id] 0 100) (.begin ⟨"a"⟩ ⟨genesis⟩ 0) =
        .ok (some (.begun (.run ⟨⟨"a"⟩, ⟨1⟩⟩)), first) ∧ Locked first ∧
      first.node.store.Synced ∧ first.node.nextFence = 2 := by
  obtain ⟨first, hask, hidle, hview⟩ := idle_begun.begins (Or.inl rfl)
  have hissued : first.issued = _ := congrArg View.issued hview
  have hfits : Fitting (begun id [id] 0 100) (.begin ⟨"a"⟩ ⟨genesis⟩ 0) := by
    rintro _ ⟨⟩
    decide
  refine ⟨first, hask, ⟨hidle, ?_, congrFun (congrArg View.states hview) ⟨"a"⟩⟩,
    (synced_fresh id [id]).ask hfits hask, congrArg View.nextFence hview⟩
  rw [hissued]
  rfl

/-- A survivor finds the first key locked as well, and its counter is above that fence. -/
theorem Locked.promote {session : Session (Engine (ReplicatedStore WalStore))}
    (hlocked : Locked session) (hsynced : session.node.store.Synced) {replica : Replica WalStore}
    (hreplica : replica ∈ session.node.store.replicas) :
    ∃ survivor, ReplicatedStore.promote session replica = .ok survivor ∧ Locked survivor ∧
      survivor.node.nextFence ≠ 1 := by
  obtain ⟨survivor, records, hpromote, hlease, -, hview, hstates⟩ := hsynced.promote hreplica
  have hread : Store.get survivor.node.store = Store.get session.node.store :=
    congrArg View.states hview
  have hissued : survivor.issued = session.issued := congrArg View.issued hview
  have hfence : survivor.node.nextFence = maxFence (Ledger.indexOf records) + 1 :=
    congrArg View.nextFence hview
  refine ⟨survivor, hpromote, ⟨⟨hlease.trans hlocked.leaseMs, ?_, ?_⟩, ?_, ?_⟩, ?_⟩
  · rw [hissued]
    exact hlocked.names
  · rw [hread]
    exact hlocked.running
  · rw [hissued]
    exact hlocked.first
  · rw [hread]
    exact hlocked.locked
  · intro hone
    have hle := le_maxFence (mem_inProgressFences.mpr
      ⟨⟨"a"⟩, ⟨genesis⟩, 0, (hstates ⟨"a"⟩).symm.trans hlocked.locked⟩)
    have hzero : maxFence (Ledger.indexOf records) = 0 := by
      simpa using hfence.symm.trans hone
    rw [hzero] at hle
    exact absurd hle (by decide)

/-- When the counter has gone all the way round, the old engine hands out the first
fence again and lets the first worker in. The engine that takes over does not. -/
theorem lapped_counter_shows :
    Along Session.ask InTimeAsked (begun id [id] 0 100) (lapping (2 ^ 64 - 1) ++ retaking) ∧
    ∃ answers session,
      runSteps Session.ask (begun id [id] 0 100) (lapping (2 ^ 64 - 1)) = .ok (answers, session) ∧
      ∀ replica ∈ session.node.store.replicas, ∃ survivor fence survivorLast last,
        promote session replica = .ok survivor ∧
        runSteps Session.ask survivor retaking =
          .ok ([some (.begun (.run ⟨⟨"a"⟩, fence⟩)), some (.completed (.error .staleFence))],
            survivorLast) ∧
        runSteps Session.ask session retaking =
          .ok ([some (.begun (.run ⟨⟨"a"⟩, ⟨1⟩⟩)), some (.completed (.ok ()))], last) := by
  refine ⟨lapping_inTime _, ?_⟩
  obtain ⟨first, hask, hfirst, hfirstSynced, hsecond⟩ := locked_begun
  obtain ⟨answers, session, hrun, hlocked, hsynced, hcounter⟩ :=
    locked_run hfirst hfirstSynced (2 ^ 64 - 1)
  have hround : session.node.nextFence = 1 := by
    rw [hcounter, hsecond]
    decide
  refine ⟨some (.begun (.run ⟨⟨"a"⟩, ⟨1⟩⟩)) :: answers, session, ?_, fun replica hreplica => ?_⟩
  · rw [lapping, runSteps_cons_ok hask, hrun]
    rfl
  · obtain ⟨survivor, hpromote, hsurvivor, habove⟩ := hlocked.promote hsynced hreplica
    obtain ⟨survivorLast, hsurvivorRun⟩ := hsurvivor.retakes
    obtain ⟨last, hlastRun⟩ := hlocked.retakes
    rw [if_neg habove] at hsurvivorRun
    rw [if_pos hround, hround] at hlastRun
    exact ⟨survivor, _, survivorLast, last, hpromote, hsurvivorRun, hlastRun⟩

end Onced.ReplicatedStore
