import Onced.Foundation.Trace
import Onced.Core.Replication
import Onced.Wal.Recovery

/-! # Replicated logs

A replicated store whose nodes are log stores. As long as every node keeps the
entries of its map in the same order the log files stay identical; compaction is
where the orders come apart. A process that dies between the writes of two nodes
leaves the first node ahead of the others, and reopening does not bring them
together again.
-/

namespace Onced.Wal

/-- A store on an empty log file. -/
def WalStore.empty (syncEach : Bool) : WalStore := ⟨∅, ⟨[], 0⟩, [], syncEach, genesis, none⟩

theorem WalStore.represents_empty (syncEach : Bool) :
    Represents (WalStore.empty syncEach) (Ledger.settled []) :=
  ⟨rfl, rfl, rfl, rfl, fun _ hentry => absurd hentry List.not_mem_nil, rfl⟩

/-- A log determines its first record. -/
theorem framing_log_head {first second : Entry} {firsts seconds : List Entry}
    (hfirst : Fits first) (hsecond : Fits second)
    (hlog : framing.log genesis (first :: firsts) = framing.log genesis (second :: seconds)) :
    first = second := by
  have hread : ∀ {entry : Entry}, Fits entry → ∀ entries,
      (decodeRecord (framing.log genesis (entry :: entries))).map Decoded.entry = some entry := by
    intro entry hfits entries
    rw [Foundation.Framing.log_cons, framing_encode, decodeRecord_encodeRecord_append hfits]
    rfl
  have hsame := hread hfirst firsts
  rw [hlog, hread hsecond seconds] at hsame
  exact (Option.some.inj hsame).symm

/-- A node that carried out a call holds the records the call leaves. -/
theorem represents_of_ran {storeCall : StoreCall} {replica next : Replica WalStore}
    (hran : Replica.Ran .done storeCall replica next) (hfits : storeCall.Fits) {ledger : Ledger}
    (hrep : Represents replica.store ledger) :
    next.store.syncEach = replica.store.syncEach ∧
      Represents next.store (ledger.call replica.store.syncEach (storeCall.on replica.seed)) := by
  have hon : (storeCall.on replica.seed).Fits := by cases storeCall <;> exact hfits
  rcases hrep.call hon .done with ⟨after, hrun, hmode, hafter⟩ | ⟨hio, -⟩
  · cases hrun.symm.trans hran.store
    exact ⟨hmode, hafter⟩
  · exact absurd rfl hio

end Onced.Wal

/-- Iterate the other way round. -/
def Onced.Iteration.reversed (iteration : Iteration) : Iteration where
  order entries := (iteration.order entries).reverse
  perm entries := (List.reverse_perm _).trans (iteration.perm entries)

namespace Onced.ReplicatedStore

open Wal Foundation

/-- Nodes on empty log files, each with a hash seed of its own. -/
def fresh (syncEach : Bool) (seed : Iteration → Iteration)
    (seeds : List (Iteration → Iteration)) : ReplicatedStore WalStore :=
  ⟨⟨.empty syncEach, seed⟩, seeds.map fun seed => ⟨.empty syncEach, seed⟩⟩

theorem store_of_mem_fresh {syncEach : Bool} {seed : Iteration → Iteration}
    {seeds : List (Iteration → Iteration)} {replica : Replica WalStore}
    (hreplica : replica ∈ (fresh syncEach seed seeds).replicas) :
    replica.store = .empty syncEach := by
  rcases List.mem_cons.mp hreplica with rfl | hother
  · rfl
  · obtain ⟨_, _, rfl⟩ := List.mem_map.mp hother
    rfl

/-! ## Each node on its own -/

/-- One call after the other, each of which returns. -/
def step (store : ReplicatedStore WalStore) (storeCall : StoreCall) :
    Except Panic (Unit × ReplicatedStore WalStore) :=
  match storeCall.run .done store with
  | .ok answer next => .ok (answer, next)
  | .error panic _ => .error panic

theorem step_ok (store : ReplicatedStore WalStore) (storeCall : StoreCall) :
    ∃ next, step store storeCall = .ok ((), next) ∧ storeCall.run .done store = .ok () next := by
  obtain ⟨next, hrun, -⟩ := LawfulStore.run_done storeCall store
  exact ⟨next, by rw [step, hrun], hrun⟩

/-- What the calls make of the records of a node with this seed. -/
def ledgerAfter (seed : Iteration → Iteration) (syncEach : Bool) (ledger : Ledger)
    (calls : List StoreCall) : Ledger :=
  calls.foldl (fun ledger storeCall => ledger.call syncEach (storeCall.on seed)) ledger

/-- The node after these calls holds what its own share of them left. -/
def Carried (calls : List StoreCall) (replica last : Replica WalStore) : Prop :=
  ∀ ledger, Represents replica.store ledger →
    Represents last.store (ledgerAfter replica.seed replica.store.syncEach ledger calls)

theorem Carried.cons {storeCall : StoreCall} (hfits : storeCall.Fits) {calls : List StoreCall}
    {replica next last : Replica WalStore} (hran : Replica.Ran .done storeCall replica next)
    (hcarried : Carried calls next last) : Carried (storeCall :: calls) replica last := by
  intro ledger hrep
  obtain ⟨hmode, hnext⟩ := represents_of_ran hran hfits hrep
  have hlast := hcarried _ hnext
  rwa [hran.seed, hmode] at hlast

/-- The calls run through, and every node carries out its share of them. -/
theorem run_carried {calls : List StoreCall} (hfits : ∀ storeCall ∈ calls, storeCall.Fits)
    (store : ReplicatedStore WalStore) :
    ∃ answers last, runSteps step store calls = .ok (answers, last) ∧
      List.Forall₂ (Carried calls) store.replicas last.replicas := by
  induction calls generalizing store with
  | nil =>
      refine ⟨[], store, rfl, List.forall₂_same.mpr fun replica _ ledger hrep => ?_⟩
      exact hrep
  | cons storeCall calls ih =>
      obtain ⟨next, hstep, hrun⟩ := step_ok store storeCall
      obtain ⟨answers, last, hrest, hcarried⟩ :=
        ih (fun other hother => hfits other (List.mem_cons_of_mem _ hother)) next
      refine ⟨() :: answers, last, ?_, ?_⟩
      · rw [runSteps_cons_ok hstep, hrest]
        rfl
      · have hcons : ∀ one next last, Replica.Ran .done storeCall one next →
            Carried calls next last → Carried (storeCall :: calls) one last :=
          fun _ _ _ hran => Carried.cons (hfits storeCall List.mem_cons_self) hran
        exact forall₂_trans hcons (ran_of_run hrun) hcarried

/-! ## Identical logs -/

/-- The log files and the chain roots of all nodes are the same. -/
def Identical (store : ReplicatedStore WalStore) : Prop :=
  ∀ one ∈ store.replicas, ∀ other ∈ store.replicas,
    one.store.disk = other.store.disk ∧ one.store.root = other.store.root

/-- The entries that survive a compaction come out of the map of every node in one order. -/
def Aligned (store : ReplicatedStore WalStore) : StoreCall → Prop
  | .compact iteration keep => ∀ one ∈ store.replicas, ∀ other ∈ store.replicas,
      (one.seed iteration).order (one.store.index.filter keep).toList =
        (other.seed iteration).order (other.store.index.filter keep).toList
  | .put .. => True
  | .flush => True

/-- Nodes that are the same stay the same through an aligned call. -/
theorem ran_unique {store : ReplicatedStore WalStore} {storeCall : StoreCall}
    (haligned : store.Aligned storeCall) {one other oneNext otherNext : Replica WalStore}
    (hone : one ∈ store.replicas) (hother : other ∈ store.replicas)
    (hsame : one.store = other.store) (honeRan : Replica.Ran .done storeCall one oneNext)
    (hotherRan : Replica.Ran .done storeCall other otherNext) :
    oneNext.store = otherNext.store := by
  have hcalls : (storeCall.on one.seed).run .done one.store =
      (storeCall.on other.seed).run .done other.store := by
    cases storeCall with
    | put key state => rw [hsame]; rfl
    | flush => rw [hsame]; rfl
    | compact iteration keep =>
        have horder := haligned one hone other hother
        rw [hsame] at horder ⊢
        simp only [StoreCall.on, StoreCall.run, Store.compact, WalStore.compact_eq, horder]
  have hends := (honeRan.store.symm.trans hcalls).trans hotherRan.store
  injection hends

/-- All nodes are in the same state. -/
def Same (store : ReplicatedStore WalStore) : Prop :=
  ∀ one ∈ store.replicas, ∀ other ∈ store.replicas, one.store = other.store

theorem Same.identical {store : ReplicatedStore WalStore} (hsame : store.Same) :
    store.Identical := by
  intro one hone other hother
  rw [hsame one hone other hother]
  exact ⟨rfl, rfl⟩

theorem Same.run {store next : ReplicatedStore WalStore} (hsame : store.Same)
    {storeCall : StoreCall} (haligned : store.Aligned storeCall)
    (hrun : storeCall.run .done store = .ok () next) : next.Same := by
  have hran := ran_of_run hrun
  intro one hone other hother
  obtain ⟨oneBefore, honeBefore, honeRan⟩ := exists_mem_of_forall₂ hran hone
  obtain ⟨otherBefore, hotherBefore, hotherRan⟩ := exists_mem_of_forall₂ hran hother
  exact ran_unique haligned honeBefore hotherBefore
    (hsame oneBefore honeBefore otherBefore hotherBefore) honeRan hotherRan

theorem same_fresh (syncEach : Bool) (seed : Iteration → Iteration)
    (seeds : List (Iteration → Iteration)) : (fresh syncEach seed seeds).Same := by
  intro one hone other hother
  rw [store_of_mem_fresh hone, store_of_mem_fresh hother]

/-- From empty logs on, nodes of one mode that compact in one order hold the
identical log after every call. -/
theorem logs_identical (syncEach : Bool) (seed : Iteration → Iteration)
    (seeds : List (Iteration → Iteration)) (calls : List StoreCall)
    (haligned : Along step Aligned (fresh syncEach seed seeds) calls) :
    ∃ answers last, runSteps step (fresh syncEach seed seeds) calls = .ok (answers, last) ∧
      Path (fun _ _ _ next => next.Identical) (fresh syncEach seed seeds) calls answers last := by
  have hstep : ∀ store storeCall, Same store → Aligned store storeCall →
      ∃ answer next, step store storeCall = .ok (answer, next) ∧ next.Identical ∧ next.Same := by
    intro store storeCall hsame haligned
    obtain ⟨next, hstep, hrun⟩ := step_ok store storeCall
    have hnext := hsame.run haligned hrun
    exact ⟨(), next, hstep, hnext.identical, hnext⟩
  obtain ⟨answers, last, hrun, hpath, -⟩ :=
    exists_path_of_invariant Same hstep (same_fresh syncEach seed seeds) haligned
  exact ⟨answers, last, hrun, hpath⟩

/-- Nodes in the same state, whose maps are ordered alike, are aligned. -/
theorem Same.aligned {store : ReplicatedStore WalStore} (hsame : store.Same)
    {seed : Iteration → Iteration} (hseeds : ∀ replica ∈ store.replicas, replica.seed = seed)
    (storeCall : StoreCall) : store.Aligned storeCall := by
  cases storeCall with
  | put key state => trivial
  | flush => trivial
  | compact iteration keep =>
      intro one hone other hother
      rw [hsame one hone other hother, hseeds one hone, hseeds other hother]

theorem seed_of_run {seed : Iteration → Iteration} {store next : ReplicatedStore WalStore}
    (hseeds : ∀ replica ∈ store.replicas, replica.seed = seed) {storeCall : StoreCall}
    (hrun : storeCall.run .done store = .ok () next) :
    ∀ replica ∈ next.replicas, replica.seed = seed := by
  intro replica hreplica
  obtain ⟨before, hbefore, hran⟩ := exists_mem_of_forall₂ (ran_of_run hrun) hreplica
  rw [hran.seed, hseeds before hbefore]

/-- A key that has been locked. -/
def held : KeyState := .inProgress ⟨1⟩ ⟨genesis⟩ 30000

/-- Two writes and a compaction that drops nothing. -/
def shuffling : List StoreCall :=
  [.put ⟨"a"⟩ held, .put ⟨"bb"⟩ held, .compact .listed fun _ _ => true]

/-- Two nodes whose maps are ordered alike write and compact, twice. -/
theorem logs_identical_pair :
    ∃ answers last, runSteps step (fresh true id [id]) (shuffling ++ shuffling) =
        .ok (answers, last) ∧
      Path (fun _ _ _ next => next.Identical) (fresh true id [id]) (shuffling ++ shuffling)
        answers last := by
  apply logs_identical
  apply along_of_invariant fun store : ReplicatedStore WalStore =>
    store.Same ∧ ∀ replica ∈ store.replicas, replica.seed = id
  · rintro storeCall - store ⟨hsame, hseeds⟩
    exact hsame.aligned hseeds storeCall
  · rintro storeCall - store answer next ⟨hsame, hseeds⟩ hstep
    obtain ⟨_, hstep', hrun⟩ := step_ok store storeCall
    cases hstep.symm.trans hstep'
    exact ⟨hsame.run (hsame.aligned hseeds storeCall) hrun, seed_of_run hseeds hrun⟩
  · refine ⟨same_fresh true id [id], fun replica hreplica => ?_⟩
    simp only [fresh, replicas, List.map_cons, List.map_nil, List.mem_cons, List.not_mem_nil,
      or_false, or_self] at hreplica
    rw [hreplica]

/-! ### Nodes that compact in different orders -/

theorem ledgerAfter_shuffling :
    (ledgerAfter id true (Ledger.settled []) shuffling).durable =
        [(⟨"a"⟩, held), (⟨"bb"⟩, held)] ∧
      (ledgerAfter Iteration.reversed true (Ledger.settled []) shuffling).durable =
        [(⟨"bb"⟩, held), (⟨"a"⟩, held)] := by
  decide +kernel

/-- The second node lists its map the other way round: after the compaction its
log is another one. -/
theorem compacted_logs_differ :
    ∃ answers last, runSteps step (fresh true id [Iteration.reversed]) shuffling =
      .ok (answers, last) ∧ ¬ last.Identical := by
  have hfits : ∀ storeCall ∈ shuffling, storeCall.Fits := by decide
  obtain ⟨answers, last, hrun, hcarried⟩ :=
    run_carried hfits (fresh true id [Iteration.reversed])
  refine ⟨answers, last, hrun, fun hidentical => ?_⟩
  obtain ⟨primary, others⟩ := last
  obtain ⟨hfirst, hrest⟩ := List.forall₂_cons.mp hcarried
  cases hrest with
  | @cons _ second _ rest hsecond _ =>
      have hone := hfirst _ (WalStore.represents_empty true)
      have hother := hsecond _ (WalStore.represents_empty true)
      have hbytes := (hidentical primary List.mem_cons_self second (by simp [replicas])).1
      have honeDisk : primary.store.disk = framing.log genesis
          (ledgerAfter id true (Ledger.settled []) shuffling).durable := hone.disk_eq
      have hotherDisk : second.store.disk = framing.log genesis
          (ledgerAfter Iteration.reversed true (Ledger.settled []) shuffling).durable :=
        hother.disk_eq
      rw [honeDisk, hotherDisk, ledgerAfter_shuffling.1, ledgerAfter_shuffling.2] at hbytes
      have hhead := framing_log_head (by decide) (by decide) hbytes
      exact absurd hhead (by decide)

/-! ## A process that dies between two nodes -/

/-- What happens to the store as a whole. -/
inductive Event where
  /-- A call that returns. -/
  | call (storeCall : StoreCall)
  /-- The process dies when the first `reached` nodes have carried out the call;
  the nodes are reopened into a new store. -/
  | crash (storeCall : StoreCall) (reached : Nat)

/-- Open the log file of a node again. -/
def reopen (replica : Replica WalStore) : Except InvalidData (Replica WalStore) := do
  let store ← WalStore.openWith replica.store.disk replica.store.syncEach
  return { replica with store := store }

/-- Reopen every node, in order, and build a replicated store from them. -/
def restart (replicas : List (Replica WalStore)) : Except String (ReplicatedStore WalStore) := do
  let replicas ← (replicas.mapM reopen).mapError InvalidData.message
  new replicas

def stepEvent (store : ReplicatedStore WalStore) :
    Event → Except String (Unit × ReplicatedStore WalStore)
  | .call storeCall => step store storeCall
  | .crash storeCall reached =>
      match Replica.runEach .done storeCall (store.replicas.take reached) with
      | .error panic _ => .error panic
      | .ok _ done => (restart (done ++ store.replicas.drop reached)).map fun next => ((), next)

/-- Everything a read returns is held by every node, and by what its log file opens to. -/
def Backed (store : ReplicatedStore WalStore) : Prop :=
  ∀ key state, Store.get store key = some state → ∀ replica ∈ store.replicas,
    Store.get replica.store key = some state ∧
      ∃ survivor, WalStore.openWith replica.store.disk true = .ok survivor ∧
        Store.get survivor key = some state

/-- A put is never cut short between two nodes; what it writes fits a record. -/
def Whole (store : ReplicatedStore WalStore) : Event → Prop
  | .call storeCall => storeCall.Fits
  | .crash storeCall reached => storeCall.Fits ∧
      ∀ key state, storeCall = .put key state → reached = 0 ∨ store.nodeCount ≤ reached

/-- A strict node with all of its records on disk. -/
def Settled (replica : Replica WalStore) : Prop :=
  replica.store.syncEach = true ∧ ∃ records, Represents replica.store (Ledger.settled records)

/-- Every node is settled and knows what the reads are answered from. -/
structure Follows (known : IdempotencyKey → Option KeyState)
    (replicas : List (Replica WalStore)) : Prop where
  settled : ∀ replica ∈ replicas, Settled replica
  knows : ∀ replica ∈ replicas, ∀ key state, known key = some state →
    Store.get replica.store key = some state

theorem Settled.ran {storeCall : StoreCall} (hfits : storeCall.Fits)
    {replica next : Replica WalStore} (hsettled : Settled replica)
    (hran : Replica.Ran .done storeCall replica next) : Settled next := by
  obtain ⟨hstrict, records, hrep⟩ := hsettled
  obtain ⟨hmode, hnext⟩ := represents_of_ran hran hfits hrep
  rw [hstrict] at hmode hnext
  have hbuffered := Ledger.call_strict_buffered (.settled records) (storeCall.on replica.seed)
  rw [← Ledger.settled_of_buffered_nil hbuffered] at hnext
  exact ⟨hmode, _, hnext⟩

theorem Settled.opens {replica : Replica WalStore} (hsettled : Settled replica) :
    ∃ survivor, WalStore.openWith replica.store.disk true = .ok survivor ∧
      survivor.syncEach = true ∧ survivor.index = replica.store.index ∧
      ∃ records, Represents survivor (Ledger.settled records) := by
  obtain ⟨hstrict, records, hrep⟩ := hsettled
  obtain ⟨survivor, hopen, hmode, hsurvivor⟩ := hrep.opensTo_durable true
  refine ⟨survivor, hopen, hmode, ?_, records, hsurvivor⟩
  rw [hsurvivor.index, hrep.index]
  rfl

theorem Settled.reopen {replica : Replica WalStore} (hsettled : Settled replica) :
    ∃ next, ReplicatedStore.reopen replica = .ok next ∧ Settled next ∧
      next.store.index = replica.store.index := by
  obtain ⟨survivor, hopen, hmode, hindex, hrecords⟩ := hsettled.opens
  refine ⟨{ replica with store := survivor }, ?_, ⟨hmode, hrecords⟩, hindex⟩
  rw [ReplicatedStore.reopen, hsettled.1, hopen]
  rfl

theorem mapM_reopen {replicas : List (Replica WalStore)}
    (hsettled : ∀ replica ∈ replicas, Settled replica) :
    ∃ nexts, replicas.mapM reopen = .ok nexts ∧
      List.Forall₂ (fun replica next => Settled next ∧ next.store.index = replica.store.index)
        replicas nexts := by
  induction replicas with
  | nil => exact ⟨[], rfl, .nil⟩
  | cons replica replicas ih =>
      obtain ⟨next, hfirst, hnext⟩ := (hsettled replica List.mem_cons_self).reopen
      obtain ⟨nexts, hrest, hnexts⟩ :=
        ih fun other hother => hsettled other (List.mem_cons_of_mem _ hother)
      refine ⟨next :: nexts, ?_, .cons hnext hnexts⟩
      rw [List.mapM_cons, hfirst, hrest]
      rfl

/-- Reopening changes nothing that can be read. -/
theorem restart_ok {primary : Replica WalStore} {others : List (Replica WalStore)}
    (hsettled : ∀ replica ∈ primary :: others, Settled replica) :
    ∃ next, restart (primary :: others) = .ok next ∧
      List.Forall₂ (fun replica next => Settled next ∧ next.store.index = replica.store.index)
        (primary :: others) next.replicas := by
  obtain ⟨nexts, hopen, hnexts⟩ := mapM_reopen hsettled
  cases hnexts with
  | @cons _ first _ rest hfirst hrest =>
      refine ⟨⟨first, rest⟩, ?_, .cons hfirst hrest⟩
      rw [restart, hopen]
      rfl

namespace Follows

variable {known : IdempotencyKey → Option KeyState} {replicas nexts : List (Replica WalStore)}

/-- Every node carries out the call. -/
theorem ran {storeCall : StoreCall} (hfits : storeCall.Fits) (hfollows : Follows known replicas)
    (hran : List.Forall₂ (Replica.Ran .done storeCall) replicas nexts) :
    Follows (fun key => storeCall.effect key (known key)) nexts := by
  constructor
  · intro next hnext
    obtain ⟨replica, hreplica, hran⟩ := exists_mem_of_forall₂ hran hnext
    exact (hfollows.settled replica hreplica).ran hfits hran
  · intro next hnext key state hstate
    obtain ⟨replica, hreplica, hran⟩ := exists_mem_of_forall₂ hran hnext
    rw [hran.get]
    exact StoreCall.effect_mono (hfollows.knows replica hreplica key) hstate

/-- Nodes that the call did not reach know what is left of it, unless it was a put. -/
theorem missed {storeCall : StoreCall} (hput : ∀ key state, storeCall ≠ .put key state)
    (hfollows : Follows known replicas) :
    Follows (fun key => storeCall.effect key (known key)) replicas :=
  ⟨hfollows.settled, fun replica hreplica key state hstate =>
    hfollows.knows replica hreplica key state (StoreCall.effect_shrinks hput hstate)⟩

theorem append (hfirst : Follows known replicas) (hsecond : Follows known nexts) :
    Follows known (replicas ++ nexts) := by
  constructor
  · intro replica hreplica
    rcases List.mem_append.mp hreplica with hreplica | hreplica
    · exact hfirst.settled replica hreplica
    · exact hsecond.settled replica hreplica
  · intro replica hreplica
    rcases List.mem_append.mp hreplica with hreplica | hreplica
    · exact hfirst.knows replica hreplica
    · exact hsecond.knows replica hreplica

theorem subset (hfollows : Follows known replicas) (hsubset : nexts ⊆ replicas) :
    Follows known nexts :=
  ⟨fun replica hreplica => hfollows.settled replica (hsubset hreplica),
    fun replica hreplica => hfollows.knows replica (hsubset hreplica)⟩

/-- The process comes back on the log files. -/
theorem restart {primary : Replica WalStore} {others : List (Replica WalStore)}
    (hfollows : Follows (Store.get primary.store) (primary :: others)) :
    ∃ next, ReplicatedStore.restart (primary :: others) = .ok next ∧
      Follows (Store.get next) next.replicas := by
  obtain ⟨next, hrestart, hnexts⟩ := restart_ok hfollows.settled
  have hread : ∀ {one other : Replica WalStore}, other.store.index = one.store.index →
      Store.get other.store = Store.get one.store := by
    intro one other hindex
    funext key
    exact congrArg (fun index : Index => index[key]?) hindex
  have hknown : Store.get next = Store.get primary.store :=
    hread (List.forall₂_cons.mp hnexts).1.2
  refine ⟨next, hrestart, ?_, ?_⟩
  · intro replica hreplica
    obtain ⟨_, _, hsettled, -⟩ := exists_mem_of_forall₂ hnexts hreplica
    exact hsettled
  · intro replica hreplica key state hstate
    obtain ⟨before, hbefore, -, hindex⟩ := exists_mem_of_forall₂ hnexts hreplica
    rw [hknown] at hstate
    rw [hread hindex]
    exact hfollows.knows before hbefore key state hstate

theorem backed {store : ReplicatedStore WalStore}
    (hfollows : Follows (Store.get store) store.replicas) : store.Backed := by
  intro key state hstate replica hreplica
  have hknows := hfollows.knows replica hreplica key state hstate
  obtain ⟨survivor, hopen, -, hindex, -⟩ := (hfollows.settled replica hreplica).opens
  refine ⟨hknows, survivor, hopen, ?_⟩
  change survivor.index[key]? = some state
  rw [hindex]
  exact hknows

/-- The nodes as a crash leaves them, in front of the restart. -/
theorem cut {store : ReplicatedStore WalStore}
    (hfollows : Follows (Store.get store) store.replicas) {storeCall : StoreCall} {reached : Nat}
    (hwhole : store.Whole (.crash storeCall reached)) :
    ∃ done primary others,
      Replica.runEach .done storeCall (store.replicas.take reached) = .ok () done ∧
      done ++ store.replicas.drop reached = primary :: others ∧
      Follows (Store.get primary.store) (primary :: others) := by
  obtain ⟨hfits, hput⟩ := hwhole
  obtain ⟨done, hrun⟩ := Replica.runEach_done storeCall (store.replicas.take reached)
  have hran := Replica.ran_of_runEach hrun
  cases reached with
  | zero =>
      cases hran
      exact ⟨[], store.primary, store.others, hrun, rfl, hfollows⟩
  | succ reached =>
      -- the primary is the first to carry out a call, so it has done this one
      cases hran with
      | @cons _ primary _ rest hprimary hrest =>
          have hknown : Store.get primary.store =
              fun key => storeCall.effect key (Store.get store key) := funext hprimary.get
          refine ⟨_, primary, rest ++ store.others.drop reached, hrun, rfl, ?_⟩
          rw [hknown]
          have hdone : Follows (fun key => storeCall.effect key (Store.get store key))
              (primary :: rest) :=
            (hfollows.subset (List.take_subset (reached + 1) store.replicas)).ran hfits
              (.cons hprimary hrest)
          have hmissed : Follows (fun key => storeCall.effect key (Store.get store key))
              (store.others.drop reached) := by
            by_cases hkind : ∃ key state, storeCall = .put key state
            · obtain ⟨key, state, rfl⟩ := hkind
              have hcount := (hput key state rfl).resolve_left (Nat.succ_ne_zero reached)
              have hall : store.others.drop reached = [] := by
                apply List.drop_eq_nil_of_le
                simpa [nodeCount, ReplicatedStore.replicas] using hcount
              rw [hall]
              exact ⟨fun _ hreplica => absurd hreplica List.not_mem_nil,
                fun _ hreplica => absurd hreplica List.not_mem_nil⟩
            · have hsubset : store.others.drop reached ⊆ store.replicas := fun replica hreplica =>
                List.mem_cons_of_mem _ (List.mem_of_mem_drop hreplica)
              exact (hfollows.subset hsubset).missed fun key state hcall =>
                hkind ⟨key, state, hcall⟩
          exact hdone.append hmissed

theorem step {store : ReplicatedStore WalStore}
    (hfollows : Follows (Store.get store) store.replicas) {event : Event}
    (hwhole : store.Whole event) :
    ∃ next, stepEvent store event = .ok ((), next) ∧
      Follows (Store.get next) next.replicas := by
  cases event with
  | call storeCall =>
      obtain ⟨next, hstep, hrun⟩ := step_ok store storeCall
      have hran := ran_of_run hrun
      have hknown : Store.get next = fun key => storeCall.effect key (Store.get store key) :=
        funext (List.forall₂_cons.mp hran).1.get
      refine ⟨next, hstep, ?_⟩
      rw [hknown]
      exact hfollows.ran hwhole hran
  | crash storeCall reached =>
      obtain ⟨done, primary, others, hrun, hnodes, hcut⟩ := hfollows.cut hwhole
      obtain ⟨next, hrestart, hnext⟩ := hcut.restart
      refine ⟨next, ?_, hnext⟩
      simp only [stepEvent, hrun, hnodes, hrestart]
      rfl

end Follows

theorem follows_fresh (seed : Iteration → Iteration) (seeds : List (Iteration → Iteration)) :
    Follows (Store.get (fresh true seed seeds)) (fresh true seed seeds).replicas := by
  constructor
  · intro replica hreplica
    rw [Settled, store_of_mem_fresh hreplica]
    exact ⟨rfl, [], WalStore.represents_empty true⟩
  · intro replica hreplica key state hstate
    rw [store_of_mem_fresh hreplica]
    exact hstate

/-- From empty logs on, whatever a read returns is on every node, if no put is
cut short between two of them. -/
theorem reads_backed (seed : Iteration → Iteration) (seeds : List (Iteration → Iteration))
    (events : List Event) (hwhole : Along stepEvent Whole (fresh true seed seeds) events) :
    ∃ answers last, runSteps stepEvent (fresh true seed seeds) events = .ok (answers, last) ∧
      Path (fun _ _ _ next => next.Backed) (fresh true seed seeds) events answers last := by
  have hstep : ∀ store event, Follows (Store.get store) store.replicas → Whole store event →
      ∃ answer next, stepEvent store event = .ok (answer, next) ∧ next.Backed ∧
        Follows (Store.get next) next.replicas := by
    intro store event hfollows hevent
    obtain ⟨next, hstep, hnext⟩ := hfollows.step hevent
    exact ⟨(), next, hstep, hnext.backed, hnext⟩
  obtain ⟨answers, last, hrun, hpath, -⟩ :=
    exists_path_of_invariant (fun store => Follows (Store.get store) store.replicas) hstep
      (follows_fresh seed seeds) hwhole
  exact ⟨answers, last, hrun, hpath⟩

/-- Dying between a put and the next, and between the nodes of a compaction. -/
def interrupted : List Event :=
  [.call (.put ⟨"k"⟩ held), .crash (.put ⟨"l"⟩ held) 0,
    .crash (.compact .listed fun _ _ => false) 1]

theorem reads_backed_interrupted :
    ∃ answers last, runSteps stepEvent (fresh true id [id]) interrupted = .ok (answers, last) ∧
      Path (fun _ _ _ next => next.Backed) (fresh true id [id]) interrupted answers last := by
  refine reads_backed id [id] interrupted (along_of_forall ?_ _)
  intro event hevent store
  simp only [interrupted, List.mem_cons, List.not_mem_nil, or_false] at hevent
  rcases hevent with rfl | rfl | rfl
  · change Fits (⟨"k"⟩, held)
    decide
  · exact ⟨show Fits (⟨"l"⟩, held) by decide, fun _ _ _ => Or.inl rfl⟩
  · exact ⟨trivial, fun _ _ hcall => by cases hcall⟩

/-- The process dies when the first of two nodes has the record. It comes back
reading a record that the other node does not hold. -/
theorem read_ahead_of_replica :
    ∃ answers last, runSteps stepEvent (fresh true id [id]) [.crash (.put ⟨"k"⟩ held) 1] =
        .ok (answers, last) ∧
      Store.get last ⟨"k"⟩ = some held ∧
      ∃ replica ∈ last.replicas, Store.get replica.store ⟨"k"⟩ = none := by
  have hfits : (StoreCall.put ⟨"k"⟩ held).Fits := by decide
  have hempty : Settled ⟨.empty true, id⟩ := ⟨rfl, [], WalStore.represents_empty true⟩
  obtain ⟨done, hrun⟩ := Replica.run_done (.put ⟨"k"⟩ held) ⟨WalStore.empty true, id⟩
  have hran := Replica.ran_of_run hrun
  have hsettled : ∀ replica ∈ [done, ⟨.empty true, id⟩], Settled replica := by
    intro replica hreplica
    simp only [List.mem_cons, List.not_mem_nil, or_false] at hreplica
    rcases hreplica with rfl | rfl
    · exact hempty.ran hfits hran
    · exact hempty
  obtain ⟨⟨primary, others⟩, hrestart, hnexts⟩ := restart_ok hsettled
  obtain ⟨⟨-, hprimary⟩, hothers⟩ := List.forall₂_cons.mp hnexts
  cases hothers with
  | @cons _ second _ rest hsecond hrest =>
      refine ⟨[()], ⟨primary, second :: rest⟩, ?_, ?_, second, by simp [replicas], ?_⟩
      · have hstep : stepEvent (fresh true id [id]) (.crash (.put ⟨"k"⟩ held) 1) =
            .ok ((), ⟨primary, second :: rest⟩) := by
          simp only [stepEvent, fresh, replicas, List.map_cons, List.map_nil, List.take_succ_cons,
            List.take_zero, Replica.runEach, hrun, List.drop_succ_cons, List.drop_zero,
            List.cons_append, List.nil_append, hrestart]
          rfl
        rw [runSteps_cons_ok hstep]
        rfl
      · change primary.store.index[(⟨"k"⟩ : IdempotencyKey)]? = some held
        rw [hprimary]
        exact hran.get ⟨"k"⟩
      · change second.store.index[(⟨"k"⟩ : IdempotencyKey)]? = none
        rw [hsecond.2]
        rfl

end Onced.ReplicatedStore
