import Onced.Sim.Simulation

/-! # What the simulator's oracles track

The oracles beside the engine, and what ties them to the records of its log.
In both disciplines the committed outcomes are those of the records the engine
reads, and the durable outcomes those of the records on disk. In strict mode the
two coincide, and a worker whose fence is current presented the fingerprint that
is locked. In group commit only one fingerprint per key is ever presented. One
lemma per kind of move says that the ties hold on.
-/

namespace Onced.Wal

/-- What a put of one key does to the states. -/
def written (key : IdempotencyKey) (state : KeyState) (states : IdempotencyKey → Option KeyState) :
    IdempotencyKey → Option KeyState :=
  fun other => (StoreCall.put key state).effect other (states other)

@[simp] theorem written_self (key : IdempotencyKey) (state : KeyState)
    (states : IdempotencyKey → Option KeyState) : written key state states key = some state :=
  if_pos rfl

theorem written_other {key other : IdempotencyKey} (hother : key ≠ other) (state : KeyState)
    (states : IdempotencyKey → Option KeyState) : written key state states other = states other :=
  if_neg hother

namespace Point

/-- The states an engine reads after a crash. -/
def durableStates (point : Point) (key : IdempotencyKey) : Option KeyState :=
  (Ledger.indexOf point.ledger.durable)[key]?

/-- One record more, and the counter a call leaves. -/
def wrote (syncEach : Bool) (point : Point) (key : IdempotencyKey) (state : KeyState)
    (nextFence : UInt64) : Point :=
  ⟨point.ledger.call syncEach (.put key state), nextFence⟩

theorem durableStates_of_buffered_nil {point : Point} (hbuffered : point.ledger.buffered = []) :
    point.durableStates = point.states := by
  funext key
  rw [durableStates, states, Ledger.records_of_buffered_nil hbuffered]

theorem states_wrote (syncEach : Bool) (point : Point) (key : IdempotencyKey) (state : KeyState)
    (nextFence : UInt64) :
    (point.wrote syncEach key state nextFence).states = written key state point.states := by
  funext other
  rw [states, wrote, Ledger.indexOf_call, Ledger.getElem?_indexAfter]
  rfl

/-- A strict record is on disk at once. -/
theorem durableStates_wrote_strict (point : Point) (key : IdempotencyKey) (state : KeyState)
    (nextFence : UInt64) :
    (point.wrote true key state nextFence).durableStates = written key state point.states := by
  rw [durableStates_of_buffered_nil rfl, states_wrote]

theorem durableStates_restart (records : List Entry) :
    (restart records).durableStates = (restart records).states :=
  durableStates_of_buffered_nil rfl

end Point

end Onced.Wal

namespace Onced.Sim

open Std Foundation Wal

def Durability.setup : Durability → Setup
  | .strict => ⟨true, leaseMs, defaultTtlMs⟩
  | .groupCommit => ⟨false, leaseMs, defaultTtlMs⟩

/-- The part of a simulation that remembers what the engine did. -/
structure Oracle where
  inflight : List Inflight
  committed : Outcomes
  durable : Outcomes
  committedFp : ExtTreeMap UInt64 UInt8
  successfulCompletes : ExtTreeMap UInt64 UInt64

def Simulation.oracle (sim : Simulation) : Oracle :=
  ⟨sim.inflight, sim.committed, sim.durable, sim.committedFp, sim.successfulCompletes⟩

/-! ## Keys and fingerprints -/

theorem keyOf_injective : Function.Injective keyOf := by
  intro one other hsame
  have hvals : "key-" ++ toString one.toNat = "key-" ++ toString other.toNat :=
    congrArg IdempotencyKey.val hsame
  exact UInt64.toNat_inj.mp (Nat.repr_injective ((String.append_right_inj _).mp hvals))

theorem fingerprintOf_injective (index : UInt64) : Function.Injective (fingerprintOf index) := by
  intro one other hsame
  have hbytes : leBytes 8 index.toNat ++ one :: List.replicate 23 0 =
      leBytes 8 index.toNat ++ other :: List.replicate 23 0 :=
    congrArg (fun fingerprint : RequestFingerprint => fingerprint.bytes.toList) hsame
  exact (List.cons.inj (List.append_cancel_left hbytes)).1

theorem Outcomes.getElem?_insert {α : Type} (map : ExtTreeMap UInt64 α) (index other : UInt64)
    (value : α) :
    (map.insert index value)[other]? = if index = other then some value else map[other]? := by
  rw [ExtTreeMap.getElem?_insert]
  simp only [Std.compare_eq_iff_eq]

/-- An outcome is live as long as the clock is below the time to live. -/
theorem lt_saturatingAdd {nowMs ttlMs : UInt64} (hclock : nowMs < ttlMs) (completedAtMs : UInt64) :
    nowMs < saturatingAdd completedAtMs ttlMs := by
  have httl := ttlMs.toNat_lt
  rw [UInt64.lt_iff_toNat_lt] at hclock ⊢
  rw [saturatingAdd_toNat]
  omega

/-! ## Outcomes and records -/

/-- The outcomes are exactly those of the completed records, under the fingerprints that are
remembered. -/
structure Agrees (states : IdempotencyKey → Option KeyState) (outcomes : Outcomes)
    (variants : ExtTreeMap UInt64 UInt8) : Prop where
  recorded : ∀ {index : UInt64} {outcome : CachedOutcome}, outcomes[index]? = some outcome →
    ∃ variant completedAtMs, variants[index]? = some variant ∧
      states (keyOf index) = some (.completed (fingerprintOf index variant) outcome completedAtMs)
  known : ∀ {index : UInt64} {fingerprint : RequestFingerprint} {outcome : CachedOutcome}
    {completedAtMs : UInt64},
    states (keyOf index) = some (.completed fingerprint outcome completedAtMs) →
      outcomes[index]? = some outcome

namespace Agrees

variable {states : IdempotencyKey → Option KeyState} {outcomes : Outcomes}
  {variants : ExtTreeMap UInt64 UInt8} {index : UInt64}

/-- A key that is locked has no outcome. -/
theorem none_of_inProgress (hagrees : Agrees states outcomes variants) {fence : Fence}
    {fingerprint : RequestFingerprint} {lease : UInt64}
    (hstate : states (keyOf index) = some (.inProgress fence fingerprint lease)) :
    outcomes[index]? = none := by
  rw [Option.eq_none_iff_forall_ne_some]
  intro outcome houtcome
  obtain ⟨variant, completedAtMs, -, hcompleted⟩ := hagrees.recorded houtcome
  rw [hstate] at hcompleted
  cases hcompleted

/-- Locking a key that has no outcome. -/
theorem locks (hagrees : Agrees states outcomes variants) (hnone : outcomes[index]? = none)
    (fence : Fence) (fingerprint : RequestFingerprint) (lease : UInt64) :
    Agrees (written (keyOf index) (.inProgress fence fingerprint lease) states) outcomes
      variants := by
  constructor
  · intro other outcome houtcome
    have hother : index ≠ other := by
      rintro rfl
      rw [hnone] at houtcome
      cases houtcome
    rw [written_other (keyOf_injective.ne hother)]
    exact hagrees.recorded houtcome
  · intro other kept outcome completedAtMs hstate
    by_cases hother : index = other
    · subst hother
      rw [written_self] at hstate
      cases hstate
    · rw [written_other (keyOf_injective.ne hother)] at hstate
      exact hagrees.known hstate

/-- Completing a key. -/
theorem commits (hagrees : Agrees states outcomes variants) (index : UInt64) (variant : UInt8)
    (outcome : CachedOutcome) (nowMs : UInt64) :
    Agrees (written (keyOf index) (.completed (fingerprintOf index variant) outcome nowMs) states)
      (outcomes.insert index outcome) (variants.insert index variant) := by
  constructor
  · intro other kept hkept
    rw [Outcomes.getElem?_insert] at hkept
    rw [Outcomes.getElem?_insert]
    split at hkept
    next hsame =>
      subst hsame
      cases hkept
      exact ⟨variant, nowMs, if_pos rfl, written_self _ _ _⟩
    next hother =>
      rw [if_neg hother, written_other (keyOf_injective.ne hother)]
      exact hagrees.recorded hkept
  · intro other fingerprint kept completedAtMs hstate
    rw [Outcomes.getElem?_insert]
    split
    next hsame =>
      subst hsame
      rw [written_self] at hstate
      cases hstate
      rfl
    next hother =>
      rw [written_other (keyOf_injective.ne hother)] at hstate
      exact hagrees.known hstate

/-- A fingerprint remembered for a key without an outcome changes nothing. -/
theorem remembers (hagrees : Agrees states outcomes variants) (hnone : outcomes[index]? = none)
    (variant : UInt8) : Agrees states outcomes (variants.insert index variant) := by
  constructor
  · intro other outcome houtcome
    have hother : index ≠ other := by
      rintro rfl
      rw [hnone] at houtcome
      cases houtcome
    rw [Outcomes.getElem?_insert, if_neg hother]
    exact hagrees.recorded houtcome
  · exact hagrees.known

end Agrees

/-! ## The ties in each discipline -/

/-- A worker's fence is older than the locked one, or it is the locked one and the worker
presented the locked fingerprint. -/
def Held (worker : Inflight) : Option KeyState → Prop
  | some (.inProgress fence fingerprint _) =>
      worker.token.fence.val < fence.val ∨
        worker.token.fence = fence ∧ fingerprint = fingerprintOf worker.index worker.fpVariant
  | some (.completed ..) => True
  | none => False

/-- Where a key is locked by fences below a bound, the fences its workers hold are below it. -/
theorem Held.lt {worker : Inflight} {state : Option KeyState} {bound : UInt64}
    (hheld : Held worker state)
    (hlocked : ∀ fingerprint outcome completedAtMs,
      state ≠ some (.completed fingerprint outcome completedAtMs))
    (hfences : ∀ fence fingerprint lease,
      state = some (.inProgress fence fingerprint lease) → fence.val < bound) :
    worker.token.fence.val < bound := by
  unfold Held at hheld
  split at hheld
  next fence fingerprint lease =>
    have hfence := hfences fence fingerprint lease rfl
    rcases hheld with hless | ⟨rfl, -⟩
    · exact UInt64.lt_trans hless hfence
    · exact hfence
  next => exact absurd rfl (hlocked _ _ _)
  next => contradiction

/-- Strict mode: what is committed is on disk, a key is completed once, and fences only grow. -/
structure StrictTies (oracle : Oracle) (point : Point) : Prop where
  buffered : point.ledger.buffered = []
  durable : oracle.durable = oracle.committed
  counted : ∀ index, index ∈ oracle.successfulCompletes → index ∈ oracle.committed
  fences : ∀ {key : IdempotencyKey} {fence : Fence} {fingerprint : RequestFingerprint}
    {lease : UInt64}, point.states key = some (.inProgress fence fingerprint lease) →
      fence.val < point.nextFence
  held : ∀ worker ∈ oracle.inflight, Held worker (point.states (keyOf worker.index))

/-- Every locked key is locked by the one fingerprint its workers present. -/
def OneFingerprint (states : IdempotencyKey → Option KeyState) : Prop :=
  ∀ (index : UInt64) (fence : Fence) (fingerprint : RequestFingerprint) (lease : UInt64),
    states (keyOf index) = some (.inProgress fence fingerprint lease) →
      fingerprint = fingerprintOf index 0

/-- Group commit: only one fingerprint per key is in play. -/
structure GroupTies (oracle : Oracle) (point : Point) : Prop where
  workers : ∀ worker ∈ oracle.inflight, worker.fpVariant = 0
  variants : ∀ {index : UInt64} {variant : UInt8},
    oracle.committedFp[index]? = some variant → variant = 0
  locked : OneFingerprint point.states
  lockedDurable : OneFingerprint point.durableStates

/-- A lock under the next fence leaves every other fence of the key behind. -/
theorem StrictTies.starts {oracle : Oracle} {point : Point} (hties : StrictTies oracle point)
    (hfence : point.nextFence.toNat + 1 < 2 ^ 64) {index : UInt64} {variant : UInt8}
    {lease : UInt64} (hlocked : ∀ fingerprint outcome completedAtMs,
      point.states (keyOf index) ≠ some (.completed fingerprint outcome completedAtMs))
    (outcome : CachedOutcome) :
    StrictTies { oracle with
        inflight := oracle.inflight ++
          [⟨index, ⟨keyOf index, ⟨point.nextFence⟩⟩, outcome, variant⟩] }
      (point.wrote true (keyOf index)
        (.inProgress ⟨point.nextFence⟩ (fingerprintOf index variant) lease)
        (point.nextFence + 1)) := by
  have hnext : point.nextFence < point.nextFence + 1 := by
    rw [UInt64.lt_iff_toNat_lt, UInt64.toNat_add]
    simp
    omega
  refine ⟨rfl, hties.durable, hties.counted, ?_, ?_⟩
  · intro key fence fingerprint kept hstate
    rw [Point.states_wrote] at hstate
    by_cases hkey : keyOf index = key
    · subst hkey
      rw [written_self] at hstate
      cases hstate
      exact hnext
    · rw [written_other hkey] at hstate
      exact UInt64.lt_trans (hties.fences hstate) hnext
  · intro worker hworker
    rw [Point.states_wrote]
    rcases List.mem_append.mp hworker with hold | hnew
    · have hheld := hties.held worker hold
      by_cases hindex : index = worker.index
      · rw [← hindex] at hheld ⊢
        rw [written_self]
        exact Or.inl (hheld.lt hlocked fun _ _ _ hstate => hties.fences hstate)
      · rw [written_other (keyOf_injective.ne hindex)]
        exact hheld
    · rw [List.mem_singleton.mp hnew, written_self]
      exact Or.inr ⟨rfl, rfl⟩

theorem OneFingerprint.locks {states : IdempotencyKey → Option KeyState}
    (hone : OneFingerprint states) (index : UInt64) (fence : Fence) (lease : UInt64) :
    OneFingerprint (written (keyOf index) (.inProgress fence (fingerprintOf index 0) lease)
      states) := by
  intro other held fingerprint kept hstate
  by_cases hother : index = other
  · subst hother
    rw [written_self] at hstate
    cases hstate
    rfl
  · rw [written_other (keyOf_injective.ne hother)] at hstate
    exact hone other held fingerprint kept hstate

theorem GroupTies.starts {oracle : Oracle} {point : Point} (hties : GroupTies oracle point)
    {index : UInt64} {fence : Fence} {lease nextFence : UInt64} (outcome : CachedOutcome) :
    GroupTies { oracle with
        inflight := oracle.inflight ++ [⟨index, ⟨keyOf index, fence⟩, outcome, 0⟩] }
      (point.wrote false (keyOf index) (.inProgress fence (fingerprintOf index 0) lease)
        nextFence) := by
  refine ⟨?_, hties.variants, ?_, hties.lockedDurable⟩
  · intro worker hworker
    rcases List.mem_append.mp hworker with hold | hnew
    · exact hties.workers worker hold
    · rw [List.mem_singleton.mp hnew]
  · rw [Point.states_wrote]
    exact hties.locked.locks index fence lease

theorem StrictTies.commits {oracle : Oracle} {point : Point} (hties : StrictTies oracle point)
    {fewer : List Inflight} (hfewer : fewer ⊆ oracle.inflight) (index : UInt64) (variant : UInt8)
    (outcome : CachedOutcome) (nowMs : UInt64) :
    StrictTies ⟨fewer, oracle.committed.insert index outcome, oracle.durable.insert index outcome,
        oracle.committedFp.insert index variant, oracle.successfulCompletes.insert index 1⟩
      (point.wrote true (keyOf index) (.completed (fingerprintOf index variant) outcome nowMs)
        point.nextFence) := by
  refine ⟨rfl, by rw [hties.durable], ?_, ?_, ?_⟩
  · intro other hother
    rw [ExtTreeMap.mem_insert] at hother ⊢
    exact hother.imp_right (hties.counted other)
  · intro key fence fingerprint lease hstate
    rw [Point.states_wrote] at hstate
    by_cases hkey : keyOf index = key
    · subst hkey
      rw [written_self] at hstate
      cases hstate
    · rw [written_other hkey] at hstate
      exact hties.fences hstate
  · intro worker hworker
    rw [Point.states_wrote]
    by_cases hindex : index = worker.index
    · rw [← hindex, written_self]
      trivial
    · rw [written_other (keyOf_injective.ne hindex)]
      exact hties.held worker (hfewer hworker)

theorem GroupTies.commits {oracle : Oracle} {point : Point} (hties : GroupTies oracle point)
    {fewer : List Inflight} (hfewer : fewer ⊆ oracle.inflight) (index : UInt64)
    (outcome : CachedOutcome) (nowMs : UInt64) :
    GroupTies ⟨fewer, oracle.committed.insert index outcome, oracle.durable,
        oracle.committedFp.insert index 0, oracle.successfulCompletes⟩
      (point.wrote false (keyOf index) (.completed (fingerprintOf index 0) outcome nowMs)
        point.nextFence) := by
  refine ⟨fun worker hworker => hties.workers worker (hfewer hworker), ?_, ?_,
    hties.lockedDurable⟩
  · intro other variant hvariant
    rw [Outcomes.getElem?_insert] at hvariant
    split at hvariant
    next =>
      cases hvariant
      rfl
    next => exact hties.variants hvariant
  · intro other fence fingerprint lease hstate
    rw [Point.states_wrote] at hstate
    by_cases hother : index = other
    · subst hother
      rw [written_self] at hstate
      cases hstate
    · rw [written_other (keyOf_injective.ne hother)] at hstate
      exact hties.locked other fence fingerprint lease hstate

/-- The counter a new life starts with is above every fence of the records. -/
theorem lt_nextFence_restart {records : List Entry} {bound : UInt64}
    (hbound : ∀ key fence fingerprint lease,
      (Point.restart records).states key = some (.inProgress fence fingerprint lease) →
        fence.val < bound) {key : IdempotencyKey} {fence : Fence}
    {fingerprint : RequestFingerprint} {lease : UInt64}
    (hstate : (Point.restart records).states key = some (.inProgress fence fingerprint lease)) :
    fence.val < (Point.restart records).nextFence := by
  rw [Point.states_restart] at hbound hstate
  exact (seed_bounds hbound).1 key fence fingerprint lease hstate

def Ties (oracle : Oracle) (point : Point) : Durability → Prop
  | .strict => StrictTies oracle point
  | .groupCommit => GroupTies oracle point

/-- The workers and outcomes the simulator remembers are those of the records. -/
structure Tracks (mode : Durability) (oracle : Oracle) (point : Point) : Prop where
  committed : Agrees point.states oracle.committed oracle.committedFp
  durable : Agrees point.durableStates oracle.durable oracle.committedFp
  included : ∀ {index : UInt64} {outcome : CachedOutcome},
    oracle.durable[index]? = some outcome → oracle.committed[index]? = some outcome
  keys : ∀ worker ∈ oracle.inflight, worker.token.key = keyOf worker.index
  ties : Ties oracle point mode

namespace Tracks

variable {mode : Durability} {oracle : Oracle} {point : Point}

/-- The records of an empty log, and nothing remembered. -/
theorem fresh (mode : Durability) : Tracks mode ⟨[], ∅, ∅, ∅, ∅⟩ (Point.restart []) := by
  have hstates : (Point.restart []).states = fun _ => none := by
    rw [Point.states_restart]
    funext key
    exact ExtTreeMap.getElem?_empty
  have hagrees : Agrees (fun _ => none) (∅ : Outcomes) ∅ := by
    constructor
    · intro index outcome houtcome
      simp at houtcome
    · intro index fingerprint outcome completedAtMs hstate
      cases hstate
  refine ⟨?_, ?_, fun houtcome => houtcome, fun _ hworker => absurd hworker List.not_mem_nil, ?_⟩
  · rw [hstates]
    exact hagrees
  · rw [Point.durableStates_restart, hstates]
    exact hagrees
  · cases mode with
    | strict =>
        refine ⟨rfl, rfl, fun _ hindex => absurd hindex ExtTreeMap.not_mem_empty, ?_,
          fun _ hworker => absurd hworker List.not_mem_nil⟩
        intro key fence fingerprint lease hstate
        rw [hstates] at hstate
        cases hstate
    | groupCommit =>
        refine ⟨fun _ hworker => absurd hworker List.not_mem_nil, ?_, ?_, ?_⟩
        · intro index variant hvariant
          simp at hvariant
        · rw [hstates]
          intro index fence fingerprint lease hstate
          cases hstate
        · rw [Point.durableStates_restart, hstates]
          intro index fence fingerprint lease hstate
          cases hstate

/-- Workers may give up. -/
theorem forget (htracks : Tracks mode oracle point) {fewer : List Inflight}
    (hfewer : fewer ⊆ oracle.inflight) :
    Tracks mode { oracle with inflight := fewer } point where
  committed := htracks.committed
  durable := htracks.durable
  included := htracks.included
  keys := fun worker hworker => htracks.keys worker (hfewer hworker)
  ties := by
    have hties := htracks.ties
    cases mode with
    | strict =>
        exact { hties with held := fun worker hworker => hties.held worker (hfewer hworker) }
    | groupCommit =>
        exact { hties with workers := fun worker hworker => hties.workers worker (hfewer hworker) }

/-- The holder of the current fence presented the fingerprint that is locked. -/
theorem authorized (htracks : Tracks mode oracle point) {worker : Inflight}
    (hworker : worker ∈ oracle.inflight) {fingerprint : RequestFingerprint} {lease : UInt64}
    (hstate : point.states (keyOf worker.index) =
      some (.inProgress worker.token.fence fingerprint lease)) :
    fingerprint = fingerprintOf worker.index worker.fpVariant := by
  have hties := htracks.ties
  cases mode with
  | strict =>
      have hheld := hties.held worker hworker
      rw [hstate] at hheld
      rcases hheld with hless | ⟨-, hfingerprint⟩
      · exact absurd hless (UInt64.lt_irrefl _)
      · exact hfingerprint
  | groupCommit =>
      rw [hties.workers worker hworker]
      exact hties.locked _ _ _ _ hstate

/-- Within the time to live, a key with an outcome is never started anew. -/
theorem none_of_start (htracks : Tracks mode oracle point) {nowMs : UInt64}
    (hclock : nowMs < defaultTtlMs) {index : UInt64} {fingerprint : RequestFingerprint}
    (haction : Engine.action defaultTtlMs fingerprint nowMs (point.states (keyOf index)) =
      .start) : oracle.committed[index]? = none := by
  rw [Option.eq_none_iff_forall_ne_some]
  intro outcome houtcome
  obtain ⟨variant, completedAtMs, -, hstate⟩ := htracks.committed.recorded houtcome
  rw [hstate] at haction
  have hexpired := Engine.action_completed_eq_start haction
  have hlive := lt_saturatingAdd hclock completedAtMs
  exact absurd (UInt64.lt_of_lt_of_le hlive hexpired) (UInt64.lt_irrefl _)

/-- A begin that starts hands a worker the next fence. -/
theorem starts (htracks : Tracks mode oracle point) {nowMs : UInt64}
    (hclock : nowMs < defaultTtlMs) (hfence : mode = .strict → point.nextFence.toNat + 1 < 2 ^ 64)
    {index : UInt64} {variant : UInt8} (hvariant : mode = .groupCommit → variant = 0)
    (haction : Engine.action defaultTtlMs (fingerprintOf index variant) nowMs
      (point.states (keyOf index)) = .start) (outcome : CachedOutcome) :
    Tracks mode { oracle with
        inflight := oracle.inflight ++
          [⟨index, ⟨keyOf index, ⟨point.nextFence⟩⟩, outcome, variant⟩] }
      (point.wrote mode.setup.syncEach (keyOf index) (.inProgress ⟨point.nextFence⟩
        (fingerprintOf index variant) (saturatingAdd nowMs leaseMs)) (point.nextFence + 1)) := by
  have hnone := htracks.none_of_start hclock haction
  have hcommitted := htracks.committed.locks hnone ⟨point.nextFence⟩ (fingerprintOf index variant)
    (saturatingAdd nowMs leaseMs)
  have hkeys : ∀ worker ∈ oracle.inflight ++
      [⟨index, ⟨keyOf index, ⟨point.nextFence⟩⟩, outcome, variant⟩],
      worker.token.key = keyOf worker.index := by
    intro worker hworker
    rcases List.mem_append.mp hworker with hold | hnew
    · exact htracks.keys worker hold
    · rw [List.mem_singleton.mp hnew]
  have hties := htracks.ties
  cases mode with
  | strict =>
      refine ⟨?_, ?_, htracks.included, hkeys, hties.starts (hfence rfl) ?_ outcome⟩
      · rw [Point.states_wrote]
        exact hcommitted
      · rw [Durability.setup, Point.durableStates_wrote_strict, hties.durable]
        exact hcommitted
      · intro fingerprint kept completedAtMs hstate
        have hknown := htracks.committed.known hstate
        rw [hnone] at hknown
        cases hknown
  | groupCommit =>
      obtain rfl := hvariant rfl
      refine ⟨?_, htracks.durable, htracks.included, hkeys, hties.starts outcome⟩
      rw [Point.states_wrote]
      exact hcommitted

/-- What the oracles remember of a completion. -/
def commit (mode : Durability) (oracle : Oracle) (worker : Inflight) (fewer : List Inflight) :
    Oracle where
  inflight := fewer
  committed := oracle.committed.insert worker.index worker.outcome
  durable :=
    match mode with
    | .strict => oracle.durable.insert worker.index worker.outcome
    | .groupCommit => oracle.durable
  committedFp := oracle.committedFp.insert worker.index worker.fpVariant
  successfulCompletes :=
    match mode with
    | .strict => oracle.successfulCompletes.insert worker.index 1
    | .groupCommit => oracle.successfulCompletes

/-- A completion by the holder of the current fence. -/
theorem commits (htracks : Tracks mode oracle point) {worker : Inflight}
    (hworker : worker ∈ oracle.inflight) {fingerprint : RequestFingerprint} {lease : UInt64}
    (hstate : point.states (keyOf worker.index) =
      some (.inProgress worker.token.fence fingerprint lease)) {fewer : List Inflight}
    (hfewer : fewer ⊆ oracle.inflight) (nowMs : UInt64) :
    Tracks mode (commit mode oracle worker fewer)
      (point.wrote mode.setup.syncEach (keyOf worker.index)
        (.completed fingerprint worker.outcome nowMs) point.nextFence) := by
  obtain rfl := htracks.authorized hworker hstate
  have hnone := htracks.committed.none_of_inProgress hstate
  have hdurable : oracle.durable[worker.index]? = none := by
    rw [Option.eq_none_iff_forall_ne_some]
    intro outcome houtcome
    rw [htracks.included houtcome] at hnone
    cases hnone
  have hcommitted := htracks.committed.commits worker.index worker.fpVariant worker.outcome nowMs
  have hkeys : ∀ other ∈ fewer, other.token.key = keyOf other.index := fun other hother =>
    htracks.keys other (hfewer hother)
  have hties := htracks.ties
  cases mode with
  | strict =>
      refine ⟨?_, ?_, ?_, hkeys, hties.commits hfewer worker.index worker.fpVariant worker.outcome
        nowMs⟩
      · rw [Point.states_wrote]
        exact hcommitted
      · rw [Durability.setup, Point.durableStates_wrote_strict]
        simp only [commit, hties.durable]
        exact hcommitted
      · intro index outcome houtcome
        simpa only [commit, hties.durable] using houtcome
  | groupCommit =>
      have hvariant := hties.workers worker hworker
      refine ⟨?_, htracks.durable.remembers hdurable _, ?_, hkeys, ?_⟩
      · rw [Point.states_wrote]
        exact hcommitted
      · intro index outcome houtcome
        change oracle.durable[index]? = some outcome at houtcome
        have hindex : worker.index ≠ index := by
          rintro rfl
          rw [hdurable] at houtcome
          cases houtcome
        simp only [commit, Outcomes.getElem?_insert, if_neg hindex]
        exact htracks.included houtcome
      · simp only [commit, Durability.setup, hvariant]
        exact hties.commits hfewer worker.index worker.outcome nowMs

/-- A flush puts every committed outcome on disk. -/
theorem flushes (htracks : Tracks mode oracle point) :
    Tracks mode { oracle with durable := oracle.committed }
      ⟨Ledger.settled point.ledger.records, point.nextFence⟩ := by
  have hstates : (Point.mk (Ledger.settled point.ledger.records) point.nextFence).states =
      point.states := by
    funext key
    rw [Point.states, Ledger.records_settled]
    rfl
  have hdisk := @Point.durableStates_of_buffered_nil
    ⟨Ledger.settled point.ledger.records, point.nextFence⟩ rfl
  have hties := htracks.ties
  refine ⟨?_, ?_, fun houtcome => houtcome, htracks.keys, ?_⟩
  · rw [hstates]
    exact htracks.committed
  · rw [hdisk, hstates]
    exact htracks.committed
  · cases mode with
    | strict =>
        refine ⟨rfl, rfl, hties.counted, ?_, ?_⟩
        · intro key fence fingerprint lease hstate
          rw [hstates] at hstate
          exact hties.fences hstate
        · intro worker hworker
          rw [hstates]
          exact hties.held worker hworker
    | groupCommit =>
        refine ⟨hties.workers, hties.variants, ?_, ?_⟩
        · rw [hstates]
          exact hties.locked
        · rw [hdisk, hstates]
          exact hties.locked

/-- A crash leaves the durable outcomes. -/
theorem crashes (htracks : Tracks mode oracle point) :
    Tracks mode { oracle with committed := oracle.durable }
      (Point.restart point.ledger.durable) := by
  have hstates : (Point.restart point.ledger.durable).states = point.durableStates :=
    Point.states_restart _
  have hdisk := Point.durableStates_restart point.ledger.durable
  have hties := htracks.ties
  refine ⟨?_, ?_, fun houtcome => houtcome, htracks.keys, ?_⟩
  · rw [hstates]
    exact htracks.durable
  · rw [hdisk, hstates]
    exact htracks.durable
  · cases mode with
    | strict =>
        have hsame := hstates.trans (Point.durableStates_of_buffered_nil hties.buffered)
        refine ⟨rfl, rfl, ?_, ?_, ?_⟩
        · simp only [hties.durable]
          exact hties.counted
        · intro key fence fingerprint lease hstate
          have hfences : ∀ key fence fingerprint lease,
              (Point.restart point.ledger.durable).states key =
                some (.inProgress fence fingerprint lease) → fence.val < point.nextFence := by
            intro key fence fingerprint lease hother
            rw [hsame] at hother
            exact hties.fences hother
          exact lt_nextFence_restart hfences hstate
        · intro worker hworker
          rw [hsame]
          exact hties.held worker hworker
    | groupCommit =>
        refine ⟨hties.workers, hties.variants, ?_, ?_⟩
        · rw [hstates]
          exact hties.lockedDurable
        · rw [hdisk, hstates]
          exact hties.lockedDurable

end Tracks

end Onced.Sim
