import Onced.Core.Store
import Onced.Foundation.Trace

/-! # Synchronous replication

A replicated store carries out every write on all of its nodes, one after the
other, before the write returns. Reads and the recovered fence come from the first
node, the primary. The nodes are stores in their own right, and each lists the
entries of its map in an order of its own.
-/

namespace Onced

open Foundation

/-- A node of a replicated store. -/
structure Replica (σ : Type) where
  store : σ
  /-- How the hash seed of this node orders the entries of its map. -/
  seed : Iteration → Iteration

/-- A primary, which serves reads, and its replicas. -/
structure ReplicatedStore (σ : Type) where
  primary : Replica σ
  others : List (Replica σ)

/-- The call as a node with this seed carries it out. -/
def StoreCall.on (seed : Iteration → Iteration) : StoreCall → StoreCall
  | .put key state => .put key state
  | .flush => .flush
  | .compact iteration keep => .compact (seed iteration) keep

@[simp] theorem StoreCall.effect_on (seed : Iteration → Iteration) (storeCall : StoreCall)
    (key : IdempotencyKey) (current : Option KeyState) :
    (storeCall.on seed).effect key current = storeCall.effect key current := by
  cases storeCall <;> rfl

/-- A node that knows at least as much before a call knows as much after it. -/
theorem StoreCall.effect_mono {storeCall : StoreCall} {key : IdempotencyKey}
    {less more : Option KeyState} (hmore : ∀ state, less = some state → more = some state)
    {state : KeyState} (hless : storeCall.effect key less = some state) :
    storeCall.effect key more = some state := by
  cases storeCall with
  | put written new =>
      by_cases hkey : written = key
      · simpa only [effect, if_pos hkey] using hless
      · simp only [effect, if_neg hkey] at hless ⊢
        exact hmore state hless
  | flush => exact hmore state hless
  | compact iteration keep =>
      obtain ⟨hstate, hkept⟩ := Option.filter_eq_some_iff.mp hless
      exact Option.filter_eq_some_iff.mpr ⟨hmore state hstate, hkept⟩

/-- Only a put brings in something new. -/
theorem StoreCall.effect_shrinks {storeCall : StoreCall}
    (hput : ∀ key state, storeCall ≠ .put key state) {key : IdempotencyKey}
    {current : Option KeyState} {state : KeyState}
    (heffect : storeCall.effect key current = some state) : current = some state :=
  (effect_eq_some heffect).resolve_left (hput key state)

namespace Replica

variable {σ : Type} [Store σ]

/-- Carry out a call on this node. -/
def run (io : Io) (storeCall : StoreCall) (replica : Replica σ) :
    EStateM.Result Panic (Replica σ) Unit :=
  match (storeCall.on replica.seed).run io replica.store with
  | .ok _ store => .ok () { replica with store := store }
  | .error panic store => .error panic { replica with store := store }

/-- Carry out a call on each node in turn; a panic leaves the later ones alone. -/
def runEach (io : Io) (storeCall : StoreCall) :
    List (Replica σ) → EStateM.Result Panic (List (Replica σ)) Unit
  | [] => .ok () []
  | replica :: rest =>
      match replica.run io storeCall with
      | .error panic replica => .error panic (replica :: rest)
      | .ok _ replica =>
          match runEach io storeCall rest with
          | .ok _ rest => .ok () (replica :: rest)
          | .error panic rest => .error panic (replica :: rest)

/-- The node after a call that returned. -/
structure Ran (io : Io) (storeCall : StoreCall) (replica next : Replica σ) : Prop where
  seed : next.seed = replica.seed
  store : (storeCall.on replica.seed).run io replica.store = .ok () next.store

theorem ran_of_run {io : Io} {storeCall : StoreCall} {replica next : Replica σ}
    (hrun : replica.run io storeCall = .ok () next) : Ran io storeCall replica next := by
  unfold run at hrun
  split at hrun
  next store hstore =>
    cases hrun
    exact ⟨rfl, hstore⟩
  next => contradiction

/-- A call that returned has been carried out by every node. -/
theorem ran_of_runEach {io : Io} {storeCall : StoreCall} {replicas nexts : List (Replica σ)}
    (hrun : runEach io storeCall replicas = .ok () nexts) :
    List.Forall₂ (Ran io storeCall) replicas nexts := by
  induction replicas generalizing nexts with
  | nil =>
      cases hrun
      exact .nil
  | cons replica replicas ih =>
      unfold runEach at hrun
      split at hrun
      next => contradiction
      next hfirst =>
        split at hrun
        next hrest =>
          cases hrun
          exact .cons (ran_of_run hfirst) (ih hrest)
        next => contradiction

theorem run_done [LawfulStore σ] (storeCall : StoreCall) (replica : Replica σ) :
    ∃ next, replica.run .done storeCall = .ok () next := by
  obtain ⟨store, hstore, -⟩ := LawfulStore.run_done (storeCall.on replica.seed) replica.store
  exact ⟨{ replica with store := store }, by rw [run, hstore]⟩

theorem runEach_done [LawfulStore σ] (storeCall : StoreCall) (replicas : List (Replica σ)) :
    ∃ nexts, runEach .done storeCall replicas = .ok () nexts := by
  induction replicas with
  | nil => exact ⟨[], rfl⟩
  | cons replica replicas ih =>
      obtain ⟨next, hfirst⟩ := run_done storeCall replica
      obtain ⟨nexts, hrest⟩ := ih
      exact ⟨next :: nexts, by simp only [runEach, hfirst, hrest]⟩

theorem Ran.get [LawfulStore σ] {storeCall : StoreCall} {replica next : Replica σ}
    (hran : Ran .done storeCall replica next) (key : IdempotencyKey) :
    Store.get next.store key = storeCall.effect key (Store.get replica.store key) := by
  obtain ⟨store, hstore, hget⟩ := LawfulStore.run_done (storeCall.on replica.seed) replica.store
  cases hstore.symm.trans hran.store
  rw [hget, StoreCall.effect_on]

end Replica

namespace ReplicatedStore

variable {σ : Type} [Store σ]

/-- The nodes, the primary first. -/
def replicas (store : ReplicatedStore σ) : List (Replica σ) := store.primary :: store.others

/-- Without a node there is nothing to build. -/
def new : List (Replica σ) → Except Panic (ReplicatedStore σ)
  | [] => .error "a replicated store needs at least one node"
  | primary :: others => .ok ⟨primary, others⟩

def nodeCount (store : ReplicatedStore σ) : Nat := store.replicas.length

/-- Carry out a call on every node, in order. -/
def onEach (io : Io) (storeCall : StoreCall) : EStateM Panic (ReplicatedStore σ) Unit :=
  fun store =>
    match store.primary.run io storeCall with
    | .error panic primary => .error panic { store with primary := primary }
    | .ok _ primary =>
        match Replica.runEach io storeCall store.others with
        | .ok _ others => .ok () ⟨primary, others⟩
        | .error panic others => .error panic ⟨primary, others⟩

instance : Store (ReplicatedStore σ) where
  get store key := Store.get store.primary.store key
  put io key state := onEach io (.put key state)
  flush io := onEach io .flush
  compact io iteration keep := onEach io (.compact iteration keep)
  maxInProgressFence store := Store.maxInProgressFence store.primary.store

theorem run_eq (io : Io) (storeCall : StoreCall) :
    storeCall.run io = (onEach io storeCall : EStateM Panic (ReplicatedStore σ) Unit) := by
  cases storeCall <;> rfl

/-- A call that returned has been carried out by every node. -/
theorem ran_of_run {io : Io} {storeCall : StoreCall} {store next : ReplicatedStore σ}
    (hrun : storeCall.run io store = .ok () next) :
    List.Forall₂ (Replica.Ran io storeCall) store.replicas next.replicas := by
  rw [run_eq] at hrun
  unfold onEach at hrun
  split at hrun
  next => contradiction
  next hprimary =>
    split at hrun
    next hothers =>
      cases hrun
      exact .cons (Replica.ran_of_run hprimary) (Replica.ran_of_runEach hothers)
    next => contradiction

/-- Replication over lawful nodes is lawful. -/
instance [LawfulStore σ] : LawfulStore (ReplicatedStore σ) where
  run_done storeCall store := by
    obtain ⟨primary, hprimary⟩ := Replica.run_done storeCall store.primary
    obtain ⟨others, hothers⟩ := Replica.runEach_done storeCall store.others
    refine ⟨⟨primary, others⟩, ?_, fun key => (Replica.ran_of_run hprimary).get key⟩
    rw [run_eq, onEach, hprimary]
    simp only [hothers]

/-- Every node knows what the primary knows. -/
def Agree (store : ReplicatedStore σ) : Prop :=
  ∀ replica ∈ store.replicas, Store.get replica.store = Store.get store

theorem Agree.run [LawfulStore σ] {store next : ReplicatedStore σ} (hagree : store.Agree)
    {storeCall : StoreCall} (hrun : storeCall.run .done store = .ok () next) : next.Agree := by
  have hran := ran_of_run hrun
  have hknows : ∀ one other, Replica.Ran .done storeCall one other → one ∈ store.replicas →
      Store.get other.store = fun key => storeCall.effect key (Store.get store key) := by
    intro one other hran hone
    funext key
    rw [hran.get, hagree one hone]
  have hprimary : Store.get next = fun key => storeCall.effect key (Store.get store key) :=
    hknows _ _ (List.forall₂_cons.mp hran).1 List.mem_cons_self
  intro replica hreplica
  obtain ⟨before, hbefore, hfrom⟩ := exists_mem_of_forall₂ hran hreplica
  rw [hprimary, hknows before replica hfrom hbefore]

end ReplicatedStore

end Onced
