import Onced.Core.Session

/-! # What pruning keeps

Pruning drops the outcomes whose time to live is over and keeps every lock, however
old: a lock is taken away by a completion, or by a takeover under a new fence, and by
nothing else. So what stands in the store after a prune is accounted for by the runs
that are still open and the completions that are recent, whatever went before.
-/

namespace Onced

open Foundation

/-- Make a call whose I/O succeeds. -/
def Engine.serve {σ : Type} [Store σ] (engine : Engine σ) (call : EngineCall) :
    Except Panic (Answer × Engine σ) :=
  match call.run .done engine with
  | .ok answer next => .ok (answer, next)
  | .error panic _ => .error panic

/-- The calls made on an engine and the answers they got, oldest first. -/
abbrev History := List (EngineCall × Answer)

namespace History

/-- A run that is answered opens its key, an accepted completion closes it. -/
def opens (keys : Finset IdempotencyKey) : EngineCall × Answer → Finset IdempotencyKey
  | (.begin key _ _, .begun (.run _)) => insert key keys
  | (.complete token _ _, .completed (.ok _)) => keys.erase token.key
  | _ => keys

/-- The keys whose latest run has had no accepted completion since. -/
def openRuns (history : History) : Finset IdempotencyKey := history.foldl opens ∅

/-- The key of an accepted completion, and when it was recorded. -/
def completion : EngineCall × Answer → Option (IdempotencyKey × UInt64)
  | (.complete token _ nowMs, .completed (.ok _)) => some (token.key, nowMs)
  | _ => none

def completions (history : History) : List (IdempotencyKey × UInt64) :=
  history.filterMap completion

/-- The completions within their time to live. -/
def recent (ttlMs nowMs : UInt64) (history : History) : List (IdempotencyKey × UInt64) :=
  history.completions.filter fun (_, completedAtMs) =>
    nowMs.toNat < completedAtMs.toNat + ttlMs.toNat

theorem openRuns_append (history : History) (entry : EngineCall × Answer) :
    openRuns (history ++ [entry]) = opens history.openRuns entry := by
  simp only [openRuns, List.foldl_append, List.foldl_cons, List.foldl_nil]

theorem mem_completions_append {history : History} {completed : IdempotencyKey × UInt64}
    (hmem : completed ∈ history.completions) (entry : EngineCall × Answer) :
    completed ∈ completions (history ++ [entry]) := by
  rw [completions, List.filterMap_append]
  exact List.mem_append_left _ hmem

/-- The history behind one stored state: a lock is an open run, an outcome was recorded
when it says. -/
def Explains (history : History) (key : IdempotencyKey) : KeyState → Prop
  | .inProgress .. => key ∈ history.openRuns
  | .completed _ _ completedAtMs => (key, completedAtMs) ∈ history.completions

/-- Every stored state has its history. -/
def Accounts (history : History) (states : IdempotencyKey → Option KeyState) : Prop :=
  ∀ key, ∀ state ∈ states key, history.Explains key state

variable {history : History} {states : IdempotencyKey → Option KeyState}

/-- A call that closes no run leaves every explanation in place. -/
theorem Explains.append {key : IdempotencyKey} {state : KeyState}
    (hexplains : history.Explains key state) {entry : EngineCall × Answer}
    (hopens : history.openRuns ⊆ opens history.openRuns entry) :
    Explains (history ++ [entry]) key state := by
  cases state with
  | inProgress fence fingerprint leaseExpiresAtMs =>
      simp only [Explains, openRuns_append] at hexplains ⊢
      exact hopens hexplains
  | completed fingerprint outcome completedAtMs => exact mem_completions_append hexplains entry

/-- A completion leaves the explanation of every other key in place. -/
theorem Explains.completed {key : IdempotencyKey} {state : KeyState}
    (hexplains : history.Explains key state) {token : RunToken} (hother : token.key ≠ key)
    (outcome : CachedOutcome) (nowMs : UInt64) :
    Explains (history ++ [(.complete token outcome nowMs, .completed (.ok ()))]) key state := by
  cases state with
  | inProgress fence fingerprint leaseExpiresAtMs =>
      simp only [Explains, openRuns_append, opens] at hexplains ⊢
      exact Finset.mem_erase.mpr ⟨hother.symm, hexplains⟩
  | completed fingerprint outcome completedAtMs => exact mem_completions_append hexplains _

/-- What a plan that is carried out leaves in the store has its history. -/
theorem Accounts.plan (haccounts : history.Accounts states) (leaseMs ttlMs nextFence : UInt64)
    (call : EngineCall) :
    Accounts (history ++ [(call, (call.plan leaseMs ttlMs nextFence states).answer)])
      fun key => (call.plan leaseMs ttlMs nextFence states).effect key (states key) := by
  have hplanned := EngineCall.planned leaseMs ttlMs nextFence states call
  generalize call.plan leaseMs ttlMs nextFence states = plan at hplanned ⊢
  intro key state hstate
  cases hplanned with
  | starts haction =>
      rcases StoreCall.effect_put_eq_some hstate with ⟨rfl, rfl⟩ | ⟨-, hkept⟩
      · simp only [Explains, openRuns_append, opens]
        exact Finset.mem_insert_self _ _
      · exact (haccounts key state hkept).append (Finset.subset_insert _ _)
  | replays => exact (haccounts key state hstate).append subset_rfl
  | waits => exact (haccounts key state hstate).append subset_rfl
  | mismatches => exact (haccounts key state hstate).append subset_rfl
  | commits hholds =>
      rcases StoreCall.effect_put_eq_some hstate with ⟨rfl, rfl⟩ | ⟨hkey, hkept⟩
      -- the run is closed, and its key is now explained by the completion itself
      · simp [Explains, completions, completion]
      · exact (haccounts key state hkept).completed hkey _ _
  | refuses => exact (haccounts key state hstate).append subset_rfl
  | flushes => exact (haccounts key state hstate).append subset_rfl
  | prunes =>
      have hstored := (Option.filter_eq_some_iff.mp hstate).1
      exact (haccounts key state hstored).append subset_rfl

end History

namespace Engine

variable {σ : Type} [Store σ] [LawfulStore σ]

/-- Over a lawful store every call is served as planned. -/
theorem serve_plan (engine : Engine σ) (call : EngineCall) :
    ∃ next, engine.serve call = .ok ((engine.plan call).answer, next) ∧
      next.ttlMs = engine.ttlMs ∧
      Store.get next.store = fun key =>
        (engine.plan call).effect key (Store.get engine.store key) := by
  obtain ⟨next, hrun, -, httl, -, hstates⟩ := run_lawful call engine
  exact ⟨next, by rw [serve, hrun], httl, funext hstates⟩

/-- Every run goes through, and its history accounts for what it leaves in the store. -/
theorem run_accounts {history : History} {engine : Engine σ}
    (haccounts : history.Accounts (Store.get engine.store)) (calls : List EngineCall) :
    ∃ answers last, runSteps serve engine calls = .ok (answers, last) ∧
      last.ttlMs = engine.ttlMs ∧
      History.Accounts (history ++ calls.zip answers) (Store.get last.store) := by
  -- the history grows with the run, so it is generalized with the engine
  induction calls generalizing history engine with
  | nil => exact ⟨[], engine, rfl, rfl, by simpa using haccounts⟩
  | cons call calls ih =>
      obtain ⟨next, hserve, httl, hstates⟩ := serve_plan engine call
      have hnext := haccounts.plan engine.leaseMs engine.ttlMs engine.nextFence call
      rw [← Engine.plan, ← hstates] at hnext
      obtain ⟨answers, last, hrun, hlast, hall⟩ := ih hnext
      refine ⟨(engine.plan call).answer :: answers, last, ?_, hlast.trans httl, ?_⟩
      · rw [runSteps_cons_ok hserve, hrun]
        rfl
      · rwa [List.append_assoc] at hall

/-- An outcome that pruning keeps was recorded within its time to live. -/
theorem completed_of_keeps {ttlMs nowMs completedAtMs : UInt64} {key : IdempotencyKey}
    {fingerprint : RequestFingerprint} {outcome : CachedOutcome}
    (hkeeps : keeps ttlMs nowMs key (.completed fingerprint outcome completedAtMs) = true) :
    nowMs.toNat < completedAtMs.toNat + ttlMs.toNat := by
  have hlt : nowMs.toNat < (saturatingAdd completedAtMs ttlMs).toNat :=
    UInt64.lt_iff_toNat_lt.mp (of_decide_eq_true hkeeps)
  rw [saturatingAdd_toNat] at hlt
  omega

end Engine

/-- The keys that are still stored are open runs or have a completion within its time to
live, and are no more than there are of both. -/
structure History.Retains (history : History) (ttlMs nowMs : UInt64)
    (states : IdempotencyKey → Option KeyState) : Prop where
  recent : ∀ key, (states key).isSome → key ∈ history.openRuns ∨
    ∃ completedAtMs, (key, completedAtMs) ∈ history.completions ∧
      nowMs.toNat < completedAtMs.toNat + ttlMs.toNat
  bounded : ∀ keys : List IdempotencyKey, keys.Nodup → (∀ key ∈ keys, (states key).isSome) →
    keys.length ≤ history.openRuns.card + (history.recent ttlMs nowMs).length

/-- Keys that are open runs or recent completions are no more than there are of both. -/
theorem History.length_le {history : History} {ttlMs nowMs : UInt64} {keys : List IdempotencyKey}
    (hnodup : keys.Nodup)
    (hkeys : ∀ key ∈ keys, key ∈ history.openRuns ∨
      ∃ completedAtMs, (key, completedAtMs) ∈ history.completions ∧
        nowMs.toNat < completedAtMs.toNat + ttlMs.toNat) :
    keys.length ≤ history.openRuns.card + (history.recent ttlMs nowMs).length := by
  have hsubset : keys.toFinset ⊆
      history.openRuns ∪ ((history.recent ttlMs nowMs).map Prod.fst).toFinset := by
    intro key hkey
    rw [Finset.mem_union, List.mem_toFinset]
    refine (hkeys key (List.mem_toFinset.mp hkey)).imp_right ?_
    rintro ⟨completedAtMs, hmem, hrecent⟩
    exact List.mem_map.mpr ⟨(key, completedAtMs),
      List.mem_filter.mpr ⟨hmem, decide_eq_true hrecent⟩, rfl⟩
  calc keys.length = keys.toFinset.card := (List.toFinset_card_of_nodup hnodup).symm
    _ ≤ (history.openRuns ∪ ((history.recent ttlMs nowMs).map Prod.fst).toFinset).card :=
      Finset.card_le_card hsubset
    _ ≤ history.openRuns.card + ((history.recent ttlMs nowMs).map Prod.fst).toFinset.card :=
      Finset.card_union_le _ _
    _ ≤ history.openRuns.card + ((history.recent ttlMs nowMs).map Prod.fst).length :=
      Nat.add_le_add_left (List.toFinset_card_le _) _
    _ = history.openRuns.card + (history.recent ttlMs nowMs).length := by rw [List.length_map]

/-- Pruning leaves open runs and recent completions. -/
theorem History.Accounts.retains {history : History}
    {states : IdempotencyKey → Option KeyState} (haccounts : history.Accounts states)
    (ttlMs nowMs : UInt64) :
    history.Retains ttlMs nowMs fun key => (states key).filter (Engine.keeps ttlMs nowMs key) := by
  have hrecent : ∀ key, ((states key).filter (Engine.keeps ttlMs nowMs key)).isSome →
      key ∈ history.openRuns ∨ ∃ completedAtMs, (key, completedAtMs) ∈ history.completions ∧
        nowMs.toNat < completedAtMs.toNat + ttlMs.toNat := by
    intro key hkept
    obtain ⟨state, hstate⟩ := Option.isSome_iff_exists.mp hkept
    obtain ⟨hstored, hkeeps⟩ := Option.filter_eq_some_iff.mp hstate
    have hexplains := haccounts key state hstored
    cases state with
    | inProgress fence fingerprint leaseExpiresAtMs => exact Or.inl hexplains
    | completed fingerprint outcome completedAtMs =>
        exact Or.inr ⟨completedAtMs, hexplains, Engine.completed_of_keeps hkeeps⟩
  exact ⟨hrecent, fun keys hnodup hkeys =>
    length_le hnodup fun key hkey => hrecent key (hkeys key hkey)⟩

/-- After every run and a prune, each key still stored is an open run or has a completion
within its time to live, so the keys are no more than those runs and completions. -/
theorem retained_by_recent_activity {σ : Type} [Store σ] [LawfulStore σ] {store : σ}
    (hempty : ∀ key, Store.get store key = none) (leaseMs ttlMs : UInt64)
    (calls : List EngineCall) (iteration : Iteration) (nowMs : UInt64) :
    ∃ answers engine last,
      runSteps Engine.serve (Engine.withTtl store leaseMs ttlMs) calls = .ok (answers, engine) ∧
      engine.serve (.pruneExpired iteration nowMs) = .ok (.done, last) ∧
      History.Retains (calls.zip answers) ttlMs nowMs (Store.get last.store) := by
  have hstart : History.Accounts [] (Store.get (Engine.withTtl store leaseMs ttlMs).store) := by
    intro key state hstate
    rw [Engine.withTtl, hempty key] at hstate
    cases hstate
  obtain ⟨answers, engine, hrun, httl, haccounts⟩ := Engine.run_accounts hstart calls
  obtain ⟨last, hprune, -, hstates⟩ := engine.serve_plan (.pruneExpired iteration nowMs)
  refine ⟨answers, engine, last, hrun, hprune, ?_⟩
  have hretains := haccounts.retains engine.ttlMs nowMs
  rw [httl] at hretains
  rw [hstates]
  simp only [Engine.plan, EngineCall.plan, Plan.effect_some, StoreCall.effect, httl]
  exact hretains

/-- A key is begun and completed, another one is begun and left. -/
def oneLeftOpen : List EngineCall :=
  [.begin ⟨"a"⟩ ⟨List.Vector.replicate 32 0⟩ 0, .complete ⟨⟨"a"⟩, ⟨1⟩⟩ ⟨200, ∅, []⟩ 5,
    .begin ⟨"b"⟩ ⟨List.Vector.replicate 32 0⟩ 7]

theorem retained_by_recent_activity_memory :
    (∀ key, Store.get MemoryStore.new key = none) ∧
      ∃ answers engine last,
        runSteps Engine.serve (Engine.withTtl MemoryStore.new 10 100) oneLeftOpen =
          .ok (answers, engine) ∧
        engine.serve (.pruneExpired .listed 50) = .ok (.done, last) ∧
        History.Retains (oneLeftOpen.zip answers) 100 50 (Store.get last.store) := by
  have hempty : ∀ key, Store.get MemoryStore.new key = none :=
    fun key => Std.ExtTreeMap.getElem?_empty
  exact ⟨hempty, retained_by_recent_activity hempty 10 100 oneLeftOpen .listed 50⟩

/-- A run that nobody completes is kept long after its lease and the time to live. -/
theorem abandoned_run_kept :
    ∃ engine last,
      runSteps Engine.serve (Engine.withTtl MemoryStore.new 10 100)
        [.begin ⟨"k"⟩ ⟨List.Vector.replicate 32 0⟩ 0] = .ok ([.begun (.run ⟨⟨"k"⟩, ⟨1⟩⟩)], engine) ∧
      engine.serve (.pruneExpired .listed 1000000) = .ok (.done, last) ∧
      (Store.get last.store ⟨"k"⟩).isSome ∧
      ¬ (1000000 : UInt64).toNat < (0 : UInt64).toNat +
        max (10 : UInt64).toNat (100 : UInt64).toNat := by
  have hplan : (Engine.withTtl MemoryStore.new 10 100).plan
      (.begin ⟨"k"⟩ ⟨List.Vector.replicate 32 0⟩ 0) =
        ⟨some (.put ⟨"k"⟩ (.inProgress ⟨1⟩ ⟨List.Vector.replicate 32 0⟩ 10)), 2,
          .begun (.run ⟨⟨"k"⟩, ⟨1⟩⟩)⟩ := EngineCall.plan_begin_start rfl
  obtain ⟨engine, hbegin, -, hlocked⟩ := Engine.serve_plan (Engine.withTtl MemoryStore.new 10 100)
    (.begin ⟨"k"⟩ ⟨List.Vector.replicate 32 0⟩ 0)
  obtain ⟨last, hprune, -, hkept⟩ := engine.serve_plan (.pruneExpired .listed 1000000)
  rw [hplan] at hbegin hlocked
  refine ⟨engine, last, ?_, hprune, ?_, by decide⟩
  · rw [runSteps_cons_ok hbegin]
    rfl
  · rw [hkept, hlocked]
    rfl

end Onced
