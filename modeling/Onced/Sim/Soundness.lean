import Onced.Sim.Oracle

/-! # No check of the simulator fails

Whatever the seed, the discipline and the order in which maps are walked, every
check of a simulation holds, on every run short enough for its clock to stay
below the time to live. The simulation is taken apart operation by operation:
each returns, and leaves oracles that track the records of the log.
-/

/-- The answer of a begin that only reads. -/
def Onced.Engine.Action.reads : Engine.Action → Option Begin
  | .start => none
  | .replay outcome => some (.replay outcome)
  | .inProgress => some .inProgress
  | .mismatch => some .mismatch

namespace Onced.Wal.Node.Represents

open Foundation

variable {setup : Setup} {engine : Engine WalStore} {point : Point} {key : IdempotencyKey}
  {fingerprint : RequestFingerprint} {nowMs : UInt64} {token : RunToken} {outcome : CachedOutcome}

/-- With a disk that works, a call returns and acts as planned. -/
theorem call_done (hrep : Represents setup engine point) {call : EngineCall} (hfits : call.Fits) :
    ∃ next, call.run .done engine = .ok (point.plan setup call).answer next ∧
      Represents setup next (point.after setup call) := by
  rcases hrep.call_refines hfits .done with hreturned | ⟨_, _, _, _, _, _, hio, _⟩
  · exact hreturned
  · exact absurd rfl hio

/-- A begin that starts writes the lock. -/
theorem begin_starts (hrep : Represents setup engine point)
    (hfits : (EngineCall.begin key fingerprint nowMs).Fits)
    (haction : Engine.action setup.ttlMs fingerprint nowMs (point.states key) = .start) :
    ∃ next, Engine.begin .done key fingerprint nowMs engine =
        .ok (.run ⟨key, ⟨point.nextFence⟩⟩) next ∧
      Represents setup next (point.wrote setup.syncEach key (.inProgress ⟨point.nextFence⟩
        fingerprint (saturatingAdd nowMs setup.leaseMs)) (point.nextFence + 1)) := by
  have hplan : point.plan setup (.begin key fingerprint nowMs) =
      ⟨some (.put key (.inProgress ⟨point.nextFence⟩ fingerprint
        (saturatingAdd nowMs setup.leaseMs))), point.nextFence + 1,
        .begun (.run ⟨key, ⟨point.nextFence⟩⟩)⟩ := EngineCall.plan_begin_start haction
  obtain ⟨next, hrun, hnext⟩ := hrep.call_done hfits
  rw [hplan] at hrun
  obtain ⟨decision, hbegin, hdecision⟩ := Engine.map_eq_ok hrun
  cases hdecision
  refine ⟨next, hbegin, ?_⟩
  simpa only [Point.after, Point.wrote, hplan] using hnext

/-- Every other begin only reads. -/
theorem begin_reads (hrep : Represents setup engine point) {decision : Begin}
    (haction : (Engine.action setup.ttlMs fingerprint nowMs (point.states key)).reads =
      some decision) :
    Engine.begin .done key fingerprint nowMs engine = .ok decision engine := by
  rw [← hrep.ttlMs, ← hrep.states] at haction
  simp only [Engine.begin, bind, EStateM.bind, get, getThe, MonadStateOf.get, EStateM.get]
  cases hread : Engine.action engine.ttlMs fingerprint nowMs (Store.get engine.store key) with
  | start =>
      rw [hread] at haction
      cases haction
  | replay kept =>
      rw [hread] at haction
      cases haction
      rfl
  | inProgress =>
      rw [hread] at haction
      cases haction
      rfl
  | mismatch =>
      rw [hread] at haction
      cases haction
      rfl

/-- A completion by the holder of the current fence writes the outcome. -/
theorem complete_commits (hrep : Represents setup engine point)
    (hfits : (EngineCall.complete token outcome nowMs).Fits) {lease : UInt64}
    (hstate : point.states token.key = some (.inProgress token.fence fingerprint lease)) :
    ∃ next, Engine.complete .done token outcome nowMs engine = .ok (.ok ()) next ∧
      Represents setup next (point.wrote setup.syncEach token.key
        (.completed fingerprint outcome nowMs) point.nextFence) := by
  have hplan : point.plan setup (.complete token outcome nowMs) =
      ⟨some (.put token.key (.completed fingerprint outcome nowMs)), point.nextFence,
        .completed (.ok ())⟩ := EngineCall.plan_complete_holder hstate
  obtain ⟨next, hrun, hnext⟩ := hrep.call_done hfits
  rw [hplan] at hrun
  obtain ⟨result, hcomplete, hresult⟩ := Engine.map_eq_ok hrun
  cases hresult
  refine ⟨next, hcomplete, ?_⟩
  simpa only [Point.after, Point.wrote, hplan] using hnext

/-- Every other completion is refused and only reads. -/
theorem complete_refused (hrep : Represents setup engine point) {refusal : CompleteError}
    (hstate : match point.states token.key with
      | some (.inProgress fence _ _) => fence ≠ token.fence ∧ refusal = .staleFence
      | some (.completed ..) => refusal = .alreadyCompleted
      | none => refusal = .unknown) :
    Engine.complete .done token outcome nowMs engine = .ok (.error refusal) engine := by
  rw [← hrep.states] at hstate
  simp only [Engine.complete, bind, EStateM.bind, get, getThe, MonadStateOf.get, EStateM.get]
  split at hstate
  next hread =>
    rw [hread, hstate.2]
    simp only [hstate.1, ne_eq, not_false_eq_true, if_true]
    rfl
  next hread =>
    rw [hread, hstate]
    rfl
  next hread =>
    rw [hread, hstate]
    rfl

theorem flush_done (hrep : Represents setup engine point) :
    ∃ next, Engine.flush .done engine = .ok () next ∧
      Represents setup next ⟨Ledger.settled point.ledger.records, point.nextFence⟩ := by
  have hfits : EngineCall.flush.Fits := trivial
  obtain ⟨next, hrun, hnext⟩ := hrep.call_done hfits
  obtain ⟨result, hflush, -⟩ := Engine.map_eq_ok hrun
  exact ⟨next, hflush, hnext⟩

end Onced.Wal.Node.Represents

namespace Onced.Sim

open Std Foundation Wal

/-! ## Records fit -/

/-- Every key of the simulator and its outcomes fit a log record. -/
theorem keyOf_length {index : UInt64} (hindex : index < keySpace) :
    (utf8 (keyOf index).val).length = 5 := by
  have hnat : index.toNat < 8 := UInt64.lt_iff_toNat_lt.mp hindex
  unfold keyOf
  generalize index.toNat = number at hnat
  interval_cases number <;> rfl

theorem fits_begin {index : UInt64} (hindex : index < keySpace) (fingerprint : RequestFingerprint)
    (nowMs : UInt64) : (EngineCall.begin (keyOf index) fingerprint nowMs).Fits := by
  simp [EngineCall.Fits, Wal.Fits, encodePayload_eq, stateField, bytesField, keyOf_length hindex]

theorem fits_complete {index : UInt64} (hindex : index < keySpace) (fence : Fence)
    (body : UInt64) (nowMs : UInt64) :
    (EngineCall.complete ⟨keyOf index, fence⟩ ⟨200, ∅, leBytes 8 body.toNat⟩ nowMs).Fits := by
  have hheaders : (∅ : HeaderMap).toList = [] := rfl
  simp [EngineCall.Fits, Wal.Fits, encodePayload_eq, stateField, bytesField, headersField,
    keyOf_length hindex, hheaders]

/-! ## What holds between operations -/

/-- The oracles track the records, and the clock, the fences and the workers stay within their
bounds for `left` more operations. -/
structure Sound (left : Nat) (sim : Simulation) (point : Point) : Prop where
  represents : Node.Represents sim.mode.setup sim.engine point
  tracks : Tracks sim.mode sim.oracle point
  clock : sim.nowMs.toNat + 1999 * left < defaultTtlMs.toNat
  fences : sim.mode = .strict → point.nextFence.toNat + left < 2 ^ 64
  room : sim.inflight.length + left < 2 ^ 64
  fits : ∀ worker ∈ sim.inflight, ∀ nowMs,
    (EngineCall.complete worker.token worker.outcome nowMs).Fits

/-- Some records tie the simulation together. -/
def Holds (left : Nat) (sim : Simulation) : Prop := ∃ point, Sound left sim point

namespace Sound

variable {left : Nat} {sim next : Simulation} {point : Point}

/-- Neither the generator nor the counters matter. -/
theorem same (hsound : Sound left sim point) (hmode : next.mode = sim.mode)
    (hengine : next.engine = sim.engine) (hclock : next.nowMs = sim.nowMs)
    (horacle : next.oracle = sim.oracle) : Sound left next point := by
  have hinflight : next.inflight = sim.inflight := congrArg Oracle.inflight horacle
  obtain ⟨hrep, htracks, hnow, hfences, hroom, hfits⟩ := hsound
  rw [← hmode, ← hengine] at hrep
  rw [← hmode, ← horacle] at htracks
  rw [← hclock] at hnow
  rw [← hmode] at hfences
  rw [← hinflight] at hroom hfits
  exact ⟨hrep, htracks, hnow, hfences, hroom, hfits⟩

theorem mono {fewer : Nat} (hfewer : fewer ≤ left) (hsound : Sound left sim point) :
    Sound fewer sim point := by
  refine { hsound with clock := ?_, fences := fun hstrict => ?_, room := ?_ }
  · have hclock := hsound.clock
    omega
  · have hfences := hsound.fences hstrict
    omega
  · have hroom := hsound.room
    omega

theorem live (hsound : Sound left sim point) : sim.nowMs < defaultTtlMs := by
  have hclock := hsound.clock
  rw [UInt64.lt_iff_toNat_lt]
  omega

end Sound

/-! ## Parts of operations -/

namespace Simulation

variable {sim : Simulation}

@[simp] theorem ends_below {n : UInt64} (hpos : n ≠ 0) {post : UInt64 → Simulation → Prop}
    {stop : Panic → Simulation → Prop} :
    Ends (below n) sim post stop ↔
      post (sim.rng.below n).1 { sim with rng := (sim.rng.below n).2 } := by
  simp [below, hpos]

@[simp] theorem ends_onEngine {α : Type} (call : EStateM Panic (Engine WalStore) α)
    {post : α → Simulation → Prop} {stop : Panic → Simulation → Prop} :
    Ends (onEngine call) sim post stop ↔
      Ends call sim.engine (fun value engine => post value { sim with engine := engine })
        (fun panic engine => stop panic { sim with engine := engine }) :=
  ends_focus _ _ _

@[simp] theorem ends_count (f : Stats → Stats) {post : Unit → Simulation → Prop}
    {stop : Panic → Simulation → Prop} :
    Ends (count f) sim post stop ↔ post () { sim with stats := f sim.stats } := Iff.rfl

/-- In group commit only the first fingerprint is presented. -/
theorem drawVariant_returns (sim : Simulation) :
    Returns drawVariant sim fun variant next =>
      (sim.mode = .groupCommit → variant = 0) ∧ ∃ rng, next = { sim with rng := rng } := by
  simp only [drawVariant, ends_bind, ends_get]
  split
  next hmode =>
    simp only [ends_map, ends_below (by decide : (2 : UInt64) ≠ 0)]
    refine ⟨fun hgroup => ?_, _, rfl⟩
    rw [hmode] at hgroup
    cases hgroup
  next => exact ⟨fun _ => rfl, sim.rng, rfl⟩

end Simulation

/-! ## Operations -/

section Operations

open Simulation

variable {left : Nat} {sim : Simulation}

/-- A worker of a fresh token joins. -/
theorem Sound.starts {point : Point} (hsound : Sound (left + 1) sim point) {index : UInt64}
    (hindex : index < keySpace) {variant : UInt8} (hvariant : sim.mode = .groupCommit → variant = 0)
    (haction : Engine.action defaultTtlMs (fingerprintOf index variant) sim.nowMs
      (point.states (keyOf index)) = .start) {engine : Engine WalStore}
    (hengine : Node.Represents sim.mode.setup engine (point.wrote sim.mode.setup.syncEach
      (keyOf index) (.inProgress ⟨point.nextFence⟩ (fingerprintOf index variant)
        (saturatingAdd sim.nowMs leaseMs)) (point.nextFence + 1))) :
    Returns (begun index variant (.run ⟨keyOf index, ⟨point.nextFence⟩⟩))
      { sim with engine := engine } fun _ next => Holds left next := by
  simp only [begun, ends_bind, ends_get, ends_count, makeOutcome, ends_modifyGet, ends_modify]
  refine ⟨_, hengine, hsound.tracks.starts hsound.live ?_ hvariant haction _, ?_, ?_, ?_, ?_⟩
  · intro hstrict
    have hfences := hsound.fences hstrict
    omega
  · have hclock := hsound.clock
    simp only
    omega
  · intro hstrict
    have hfences := hsound.fences hstrict
    simp only [Point.wrote, UInt64.toNat_add]
    simp
    omega
  · have hroom := hsound.room
    simp only [List.length_append, List.length_singleton]
    omega
  · intro worker hworker nowMs
    rcases List.mem_append.mp hworker with hold | hnew
    · exact hsound.fits worker hold nowMs
    · rw [List.mem_singleton.mp hnew]
      exact fits_complete hindex _ _ nowMs

/-- A begin is answered, and the answer passes the oracle. -/
theorem Sound.begins {point : Point} (hsound : Sound (left + 1) sim point) {index : UInt64}
    (hindex : index < keySpace) {variant : UInt8}
    (hvariant : sim.mode = .groupCommit → variant = 0) :
    Returns (onEngine (Engine.begin .done (keyOf index) (fingerprintOf index variant) sim.nowMs))
      sim fun decision next =>
        Returns (begun index variant decision) next fun _ last => Holds left last := by
  have hkept : ∀ stats, Holds left { sim with stats := stats } := fun stats =>
    ⟨point, (hsound.mono (Nat.le_succ left)).same rfl rfl rfl rfl⟩
  have httl : sim.mode.setup.ttlMs = defaultTtlMs := by cases sim.mode <;> rfl
  have hlease : sim.mode.setup.leaseMs = leaseMs := by cases sim.mode <;> rfl
  apply (ends_onEngine _).mpr
  have hreads : ∀ decision, (Engine.action defaultTtlMs (fingerprintOf index variant) sim.nowMs
      (point.states (keyOf index))).reads = some decision →
      Engine.begin .done (keyOf index) (fingerprintOf index variant) sim.nowMs sim.engine =
        .ok decision sim.engine := by
    intro decision haction
    rw [← httl] at haction
    exact hsound.represents.begin_reads haction
  cases haction : Engine.action defaultTtlMs (fingerprintOf index variant) sim.nowMs
      (point.states (keyOf index)) with
  | start =>
      rw [← httl] at haction
      obtain ⟨engine, hbegin, hengine⟩ :=
        hsound.represents.begin_starts (fits_begin hindex _ _) haction
      rw [httl] at haction
      rw [hlease] at hengine
      rw [ends_of_eq_ok hbegin]
      exact hsound.starts hindex hvariant haction hengine
  | replay outcome =>
      rw [haction] at hreads
      rw [ends_of_eq_ok (hreads _ rfl)]
      obtain ⟨completedAtMs, hstate⟩ := Engine.action_eq_replay haction
      have houtcome := hsound.tracks.committed.known hstate
      obtain ⟨remembered, _, hremembered, hrecord⟩ := hsound.tracks.committed.recorded houtcome
      rw [hstate] at hrecord
      simp only [Option.some.injEq, KeyState.completed.injEq] at hrecord
      obtain rfl := fingerprintOf_injective index hrecord.1
      simp only [begun, ends_bind, ends_count, ends_get, ends_require]
      exact ⟨fun _ => ⟨fun _ => hkept _, fun hwrong => hwrong hremembered⟩,
        fun hwrong => hwrong houtcome⟩
  | inProgress =>
      rw [haction] at hreads
      rw [ends_of_eq_ok (hreads _ rfl)]
      exact hkept _
  | mismatch =>
      rw [haction] at hreads
      rw [ends_of_eq_ok (hreads _ rfl)]
      exact hkept _

theorem doBegin_returns (hholds : Holds (left + 1) sim) :
    Returns doBegin sim fun _ next => Holds left next := by
  obtain ⟨point, hsound⟩ := hholds
  have hindex : (sim.rng.below keySpace).1 < keySpace :=
    UInt64.lt_iff_toNat_lt.mpr (Rng.below_lt (by decide) sim.rng)
  simp only [doBegin, ends_bind, ends_below (by decide : keySpace ≠ 0)]
  generalize (sim.rng.below keySpace).1 = index at hindex
  refine (drawVariant_returns _).mono ?_ fun _ _ hstop => hstop
  rintro variant _ ⟨hvariant, rng, rfl⟩
  rw [ends_get]
  have hdrawn : Sound (left + 1) { sim with rng := rng } point := hsound.same rfl rfl rfl rfl
  exact hdrawn.begins hindex hvariant

/-- A worker leaves. -/
theorem Sound.forget {point : Point} (hsound : Sound left sim point) (which : Nat) :
    Sound left { sim with inflight := sim.inflight.eraseIdx which } point where
  represents := hsound.represents
  tracks := hsound.tracks.forget (List.eraseIdx_subset)
  clock := hsound.clock
  fences := hsound.fences
  room := Nat.lt_of_le_of_lt (Nat.add_le_add_right (List.length_eraseIdx_le _ _) _) hsound.room
  fits := fun worker hworker => hsound.fits worker (List.eraseIdx_subset hworker)

/-- An accepted completion passes the oracle, which then knows the outcome. -/
theorem Sound.commits {point : Point} (hsound : Sound left sim point) {which : Nat}
    {worker : Inflight} (hwhich : sim.inflight[which]? = some worker)
    {fingerprint : RequestFingerprint} {lease : UInt64}
    (hstate : point.states (keyOf worker.index) =
      some (.inProgress worker.token.fence fingerprint lease)) {engine : Engine WalStore}
    (hengine : Node.Represents sim.mode.setup engine (point.wrote sim.mode.setup.syncEach
      (keyOf worker.index) (.completed fingerprint worker.outcome sim.nowMs) point.nextFence)) :
    Returns (committedBy worker)
      { sim with inflight := sim.inflight.eraseIdx which, engine := engine }
      fun _ next => Holds left next := by
  have htracks := hsound.tracks.commits (List.mem_of_getElem? hwhich) hstate
    (List.eraseIdx_subset : sim.inflight.eraseIdx which ⊆ _) sim.nowMs
  have hnone := hsound.tracks.committed.none_of_inProgress hstate
  have hforgot := hsound.forget which
  simp only [committedBy, ends_bind, ends_count, ends_modify, ends_get]
  split
  next hstrict =>
    have hties : StrictTies sim.oracle point := by
      have hties := hsound.tracks.ties
      rwa [hstrict] at hties
    have hfirst : sim.successfulCompletes.getD worker.index 0 = 0 := by
      apply ExtTreeMap.getD_eq_fallback
      intro hcounted
      have hmem := hties.counted worker.index hcounted
      rw [ExtTreeMap.mem_iff_isSome_getElem?, hnone] at hmem
      cases hmem
    have hdurable : sim.durable[worker.index]? = none := by
      have hsame : sim.durable = sim.committed := hties.durable
      rw [hsame]
      exact hnone
    simp only [ends_bind, ends_modify, ends_require, hfirst, UInt64.zero_add, markDurable,
      ends_get, hdurable]
    refine ⟨fun _ => ?_, fun hwrong => hwrong trivial⟩
    refine ⟨_, hengine, ?_, hforgot.clock, hforgot.fences, hforgot.room, hforgot.fits⟩
    simpa only [Tracks.commit, hstrict, Simulation.oracle] using htracks
  next hgroup =>
    refine ⟨_, hengine, ?_, hforgot.clock, ?_, hforgot.room, hforgot.fits⟩
    · simpa only [Tracks.commit, hgroup, Simulation.oracle] using htracks
    · intro hstrict
      rw [hgroup] at hstrict
      cases hstrict

/-- A completion is answered, and the answer passes the oracle. -/
theorem Sound.completes {point : Point} (hsound : Sound left sim point) {which : Nat}
    {worker : Inflight} (hwhich : sim.inflight[which]? = some worker) :
    Returns (onEngine (Engine.complete .done worker.token worker.outcome sim.nowMs))
      { sim with inflight := sim.inflight.eraseIdx which } fun result next =>
        Returns (completed worker result) next fun _ last => Holds left last := by
  have hworker : worker ∈ sim.inflight := List.mem_of_getElem? hwhich
  have hkey : worker.token.key = keyOf worker.index := hsound.tracks.keys worker hworker
  have hforgot := hsound.forget which
  have hkept : ∀ stats, Holds left
      { sim with inflight := sim.inflight.eraseIdx which, stats := stats } := fun stats =>
    ⟨point, hforgot.same rfl rfl rfl rfl⟩
  apply (ends_onEngine _).mpr
  have hrefused : ∀ refusal, (match point.states (keyOf worker.index) with
      | some (.inProgress fence _ _) => fence ≠ worker.token.fence ∧ refusal = .staleFence
      | some (.completed ..) => refusal = .alreadyCompleted
      | none => refusal = .unknown) →
      Engine.complete .done worker.token worker.outcome sim.nowMs sim.engine =
        .ok (.error refusal) sim.engine := by
    intro refusal hstate
    rw [← hkey] at hstate
    exact hsound.represents.complete_refused hstate
  cases hstate : point.states (keyOf worker.index) with
  | none =>
      rw [hstate] at hrefused
      rw [ends_of_eq_ok (hrefused _ rfl)]
      simp only [completed, ends_bind, ends_get]
      split
      next hstrict =>
        -- in strict mode the begin of a token is on disk before the token is out
        have hties := hsound.tracks.ties
        change sim.mode = .strict at hstrict
        rw [hstrict] at hties
        have hheld := hties.held worker hworker
        rw [hstate] at hheld
        exact hheld.elim
      next => exact hkept _
  | some state =>
      cases state with
      | completed fingerprint outcome completedAtMs =>
          rw [hstate] at hrefused
          rw [ends_of_eq_ok (hrefused _ rfl)]
          have houtcome := hsound.tracks.committed.known hstate
          have hknown : worker.index ∈ sim.committed := by
            change sim.committed[worker.index]? = some outcome at houtcome
            rw [ExtTreeMap.mem_iff_isSome_getElem?, houtcome]
            rfl
          simp only [completed, ends_bind, ends_count, ends_get, ends_require]
          exact ⟨fun _ => hkept _, fun hwrong => hwrong hknown⟩
      | inProgress fence fingerprint lease =>
          by_cases hfence : fence = worker.token.fence
          · subst hfence
            have hholder := hstate
            rw [← hkey] at hholder
            obtain ⟨engine, hcomplete, hengine⟩ := hsound.represents.complete_commits
              (hsound.fits worker hworker sim.nowMs) hholder
            rw [ends_of_eq_ok hcomplete]
            rw [hkey] at hengine
            exact hsound.commits hwhich hstate hengine
          · rw [hstate] at hrefused
            rw [ends_of_eq_ok (hrefused _ ⟨hfence, rfl⟩)]
            exact hkept _

theorem doComplete_returns (hholds : Holds (left + 1) sim) :
    Returns doComplete sim fun _ next => Holds left next := by
  obtain ⟨point, hsound⟩ := hholds
  have hless := hsound.mono (Nat.le_succ left)
  simp only [doComplete, ends_bind, ends_get]
  split
  next => exact ⟨point, hless⟩
  next hnonempty =>
    have hlength : (UInt64.ofNat sim.inflight.length).toNat = sim.inflight.length :=
      UInt64.toNat_ofNat_of_lt' (Nat.lt_of_le_of_lt (Nat.le_add_right _ _) hsound.room)
    have hpos : 0 < (UInt64.ofNat sim.inflight.length).toNat := by
      rw [hlength, List.length_pos_iff]
      simpa using hnonempty
    have hwhich := Rng.below_lt hpos sim.rng
    have hsome : UInt64.ofNat sim.inflight.length ≠ 0 := by
      intro hzero
      rw [hzero] at hpos
      exact absurd hpos (Nat.lt_irrefl _)
    simp only [ends_bind, ends_below hsome]
    generalize sim.rng.below (UInt64.ofNat sim.inflight.length) = drawn at hwhich
    rw [hlength] at hwhich
    have hworker := List.getElem?_eq_getElem hwhich
    simp only [takeWorker, ends_bind, ends_get, hworker, ends_modify, ends_pure]
    have hdrawn : Sound left { sim with rng := drawn.2 } point := hless.same rfl rfl rfl rfl
    exact hdrawn.completes hworker

/-- While committed outcomes are marked durable: what is durable is committed, and what is
committed is durable or still to come. -/
structure Marking (sim : Simulation) (rest : List (UInt64 × CachedOutcome))
    (durable : Outcomes) : Prop where
  coming : ∀ entry ∈ rest, sim.committed[entry.1]? = some entry.2
  included : ∀ {index : UInt64} {outcome : CachedOutcome},
    durable[index]? = some outcome → sim.committed[index]? = some outcome
  covered : ∀ {index : UInt64} {outcome : CachedOutcome},
    sim.committed[index]? = some outcome →
      durable[index]? = some outcome ∨ (index, outcome) ∈ rest

theorem Marking.eq_committed {durable : Outcomes} (hmarking : Marking sim [] durable) :
    durable = sim.committed := by
  apply ExtTreeMap.ext_getElem?
  intro index
  apply Option.ext
  intro outcome
  refine ⟨hmarking.included, fun houtcome => ?_⟩
  exact (hmarking.covered houtcome).resolve_right List.not_mem_nil

/-- Marking one outcome durable passes. -/
theorem Marking.step {durable : Outcomes} {entry : UInt64 × CachedOutcome}
    {rest : List (UInt64 × CachedOutcome)} (hmarking : Marking sim (entry :: rest) durable) :
    Returns (markDurable entry.1 entry.2) { sim with durable := durable } fun _ next =>
      ∃ marked, next = { sim with durable := marked } ∧ Marking sim rest marked := by
  have hentry := hmarking.coming entry List.mem_cons_self
  have hcoming : ∀ other ∈ rest, sim.committed[other.1]? = some other.2 := fun other hother =>
    hmarking.coming other (List.mem_cons_of_mem _ hother)
  simp only [markDurable, ends_bind, ends_get]
  split
  next existing hexisting =>
    have hcommitted := hmarking.included hexisting
    rw [hentry] at hcommitted
    cases hcommitted
    simp only [ends_require, true_implies, not_true_eq_false, false_implies, and_true]
    refine ⟨durable, rfl, hcoming, hmarking.included, fun houtcome => ?_⟩
    rcases hmarking.covered houtcome with hdurable | hmem
    · exact Or.inl hdurable
    · rcases List.mem_cons.mp hmem with hhead | hrest
      · cases hhead
        exact Or.inl hexisting
      · exact Or.inr hrest
  next =>
    simp only [ends_modify]
    refine ⟨durable.insert entry.1 entry.2, rfl, hcoming, fun houtcome => ?_, fun houtcome => ?_⟩
    · rw [Outcomes.getElem?_insert] at houtcome
      split at houtcome
      next hsame =>
        cases houtcome
        rw [← hsame]
        exact hentry
      next => exact hmarking.included houtcome
    · rw [Outcomes.getElem?_insert]
      split
      next hsame =>
        rw [← hsame, hentry] at houtcome
        exact Or.inl houtcome
      next hother =>
        rcases hmarking.covered houtcome with hdurable | hmem
        · exact Or.inl hdurable
        · rcases List.mem_cons.mp hmem with hhead | hrest
          · cases hhead
            exact absurd rfl hother
          · exact Or.inr hrest

/-- The committed outcomes, in the order in which they are walked. -/
theorem mem_visit (visit : Visit) (outcomes : Outcomes) (index : UInt64)
    (outcome : CachedOutcome) :
    (index, outcome) ∈ visit.order outcomes.toList ↔ outcomes[index]? = some outcome := by
  rw [(visit.perm _).mem_iff, ExtTreeMap.mem_toList_iff_getElem?_eq_some]

/-- Marking every committed outcome durable passes, and leaves just these durable. -/
theorem markAll_returns (hincluded : ∀ {index : UInt64} {outcome : CachedOutcome},
      sim.durable[index]? = some outcome → sim.committed[index]? = some outcome)
    (visit : Visit) :
    Returns ((visit.order sim.committed.toList).forM fun entry => markDurable entry.1 entry.2) sim
      fun _ next => next = { sim with durable := sim.committed } := by
  have hstart : Marking sim (visit.order sim.committed.toList) sim.durable :=
    ⟨fun entry hentry => (mem_visit visit _ _ _).mp hentry, hincluded,
      fun houtcome => Or.inr ((mem_visit visit _ _ _).mpr houtcome)⟩
  refine (ends_forM (fun rest state => ∃ durable, state = { sim with durable := durable } ∧
    Marking sim rest durable) ?_ ⟨sim.durable, rfl, hstart⟩).mono ?_ fun _ _ hstop => hstop
  · rintro entry rest _ ⟨durable, rfl, hmarking⟩
    exact hmarking.step
  · rintro _ _ ⟨durable, rfl, hmarking⟩
    rw [hmarking.eq_committed]

theorem doFlush_returns (hholds : Holds (left + 1) sim) (visit : Visit) :
    Returns (doFlush visit) sim fun _ next => Holds left next := by
  obtain ⟨point, hsound⟩ := hholds
  have hless := hsound.mono (Nat.le_succ left)
  obtain ⟨engine, hflush, hengine⟩ := hless.represents.flush_done
  simp only [doFlush, ends_bind, ends_count, ends_onEngine]
  rw [ends_of_eq_ok hflush, ends_get]
  refine Ends.mono (markAll_returns ?_ visit) ?_ fun _ _ hstop => hstop
  · exact hless.tracks.included
  rintro _ _ rfl
  exact ⟨_, hengine, hless.tracks.flushes, hless.clock, hless.fences, hless.room, hless.fits⟩

/-- A jump of the clock is below twice the lease. -/
theorem drawJump_returns (sim : Simulation) :
    Returns drawJump sim fun jump next =>
      jump.toNat ≤ 1999 ∧ ∃ rng, next = { sim with rng := rng } := by
  have hhalf : (leaseMs / 2).toNat = 500 := rfl
  have hwhole : leaseMs.toNat = 1000 := rfl
  simp only [drawJump, ends_bind, ends_below (by decide : (2 : UInt64) ≠ 0)]
  generalize (sim.rng.below 2).2 = rng
  split
  next =>
    have hsmall := Rng.below_lt (by decide : 0 < (leaseMs / 2).toNat) rng
    simp only [ends_map, ends_below (by decide : leaseMs / 2 ≠ 0)]
    refine ⟨?_, _, rfl⟩
    rw [UInt64.toNat_add, UInt64.toNat_one]
    omega
  next =>
    have hsmall := Rng.below_lt (by decide : 0 < leaseMs.toNat) rng
    simp only [ends_map, ends_below (by decide : leaseMs ≠ 0)]
    refine ⟨?_, _, rfl⟩
    rw [UInt64.toNat_add]
    omega

theorem doAdvanceClock_returns (hholds : Holds (left + 1) sim) :
    Returns doAdvanceClock sim fun _ next => Holds left next := by
  obtain ⟨point, hsound⟩ := hholds
  have hless := hsound.mono (Nat.le_succ left)
  rw [doAdvanceClock]
  apply (ends_bind _ _).mpr
  refine (drawJump_returns sim).mono ?_ fun _ _ hstop => hstop
  rintro jump _ ⟨hjump, rng, rfl⟩
  refine ⟨point, hless.represents, hless.tracks, ?_, hless.fences, hless.room, hless.fits⟩
  have hclock := hsound.clock
  have hsum := UInt64.toNat_add sim.nowMs jump
  have hmod : (sim.nowMs.toNat + jump.toNat) % 2 ^ 64 ≤ sim.nowMs.toNat + jump.toNat :=
    Nat.mod_le _ _
  simp only
  omega

/-- A log that opens to some records is opened, and the engine goes on from them. -/
theorem openStore_opensTo {disk : List UInt8} {records : List Entry}
    (hopens : OpensTo disk records) (mode : Durability) :
    ∃ store, openStore disk mode = .ok store ∧
      Node.Represents mode.setup (Engine.new store leaseMs) (Point.restart records) := by
  have hseeded : ∀ store, Wal.Represents store (Ledger.settled records) →
      (Engine.new store leaseMs).nextFence = (Point.restart records).nextFence := by
    intro store hstore
    change maxFence store.index + 1 = _
    rw [hstore.index, Ledger.records_settled]
    rfl
  cases mode with
  | strict =>
      obtain ⟨store, hopen, hmode, hstore⟩ := hopens true
      exact ⟨store, by simp [openStore, hopen, Except.mapError], hstore, hmode, rfl, rfl,
        hseeded store hstore⟩
  | groupCommit =>
      obtain ⟨store, hopen, hmode, hstore⟩ := hopens false
      exact ⟨store, by simp [openStore, hopen, Except.mapError], hstore, hmode, rfl, rfl,
        hseeded store hstore⟩

/-- Within the time to live, a committed key replays its outcome. -/
theorem checkReplay_returns {point : Point} (hsound : Sound left sim point) {index : UInt64}
    {expected : CachedOutcome} (hexpected : sim.committed[index]? = some expected) :
    Returns (checkReplay index expected) sim fun _ next => next = sim := by
  obtain ⟨variant, completedAtMs, hvariant, hstate⟩ := hsound.tracks.committed.recorded hexpected
  change sim.committedFp[index]? = some variant at hvariant
  have httl : sim.mode.setup.ttlMs = defaultTtlMs := by cases sim.mode <;> rfl
  have hlive : ¬ sim.nowMs ≥ saturatingAdd completedAtMs defaultTtlMs :=
    UInt64.not_le.mpr (lt_saturatingAdd hsound.live completedAtMs)
  have hbegin : Engine.begin .done (keyOf index) (fingerprintOf index variant) sim.nowMs
      sim.engine = .ok (.replay expected) sim.engine := by
    apply hsound.represents.begin_reads
    rw [hstate, httl, Engine.action, if_neg hlive, if_pos rfl]
    rfl
  simp only [checkReplay, ends_bind, ends_get, hvariant, Option.getD_some, ends_onEngine]
  rw [ends_of_eq_ok hbegin]
  exact (ends_require _ _).mpr ⟨fun _ => rfl, fun hwrong => hwrong rfl⟩

/-- In strict mode the durable outcomes are the committed ones, so both modes fall back to them. -/
theorem fallBack_eq {point : Point} (htracks : Tracks sim.mode sim.oracle point) :
    sim.fallBack = { sim with committed := sim.durable } := by
  unfold fallBack
  split
  next => rfl
  next hstrict =>
    have hties := htracks.ties
    cases hmode : sim.mode with
    | groupCommit => exact absurd hmode hstrict
    | strict =>
        rw [hmode] at hties
        have hsame : sim.durable = sim.committed := hties.durable
        rw [← hmode]
        exact congrArg (fun outcomes => { sim with committed := outcomes }) hsame.symm

/-- A new life starts its fences no higher than the old one had come. -/
theorem nextFence_restart_le {oracle : Oracle} {point : Point} (hties : StrictTies oracle point) :
    (Point.restart point.ledger.durable).nextFence.toNat ≤ max 1 point.nextFence.toNat := by
  have hstates : point.durableStates = point.states :=
    Point.durableStates_of_buffered_nil hties.buffered
  refine (seed_bounds fun key fence fingerprint lease hlocked => ?_).2
  exact hties.fences ((congrFun hstates key).symm.trans hlocked)

/-- The ties hold on after a crash, with the durable outcomes as the committed ones. -/
theorem Sound.crashes {point : Point} (hsound : Sound left sim point) {engine : Engine WalStore}
    (hengine : Node.Represents sim.mode.setup engine (Point.restart point.ledger.durable))
    (stats : Stats) :
    Sound left { sim with stats := stats, engine := engine, committed := sim.durable }
      (Point.restart point.ledger.durable) := by
  refine ⟨hengine, hsound.tracks.crashes, hsound.clock, fun hstrict => ?_, hsound.room,
    hsound.fits⟩
  change sim.mode = .strict at hstrict
  have hties := hsound.tracks.ties
  rw [hstrict] at hties
  have hseeded := nextFence_restart_le hties
  have hfences := hsound.fences hstrict
  have hclock := hsound.clock
  have httl : defaultTtlMs.toNat = 86400000 := rfl
  omega

/-- Every committed outcome is checked, and the checks pass. -/
theorem checkAll_returns {point : Point} (hsound : Sound left sim point) (visit : Visit) :
    Returns ((visit.order sim.committed.toList).forM fun entry => checkReplay entry.1 entry.2) sim
      fun _ next => next = sim := by
  refine (ends_forM (fun rest state => state = sim ∧
    ∀ entry ∈ rest, sim.committed[entry.1]? = some entry.2) ?_ ⟨rfl, ?_⟩).mono
      (fun _ _ hend => hend.1) fun _ _ hstop => hstop
  · rintro entry rest _ ⟨rfl, hcoming⟩
    refine (checkReplay_returns hsound (hcoming entry List.mem_cons_self)).mono ?_
      fun _ _ hstop => hstop
    rintro _ _ rfl
    exact ⟨rfl, fun other hother => hcoming other (List.mem_cons_of_mem _ hother)⟩
  · exact fun entry hentry => (mem_visit visit _ _ _).mp hentry

/-- After a crash the oracle falls back to what is durable, and all of it replays. -/
theorem doCrash_returns (hholds : Holds (left + 1) sim) (visit : Visit) :
    Returns (doCrash visit) sim fun _ next => Holds left next := by
  obtain ⟨point, hsound⟩ := hholds
  have hless := hsound.mono (Nat.le_succ left)
  obtain ⟨store, hopen, hengine⟩ :=
    openStore_opensTo hless.represents.store.opensTo_durable sim.mode
  have hreopen : ∀ stats, reopen { sim with stats := stats } =
      .ok () { sim with stats := stats, engine := Engine.new store leaseMs } := by
    intro stats
    simp only [reopen, hopen]
  simp only [doCrash, ends_bind, ends_count]
  rw [ends_of_eq_ok (hreopen _), ends_modify, ends_get, fallBack_eq (by exact hless.tracks)]
  have hcrashed := hless.crashes hengine { sim.stats with crashes := sim.stats.crashes + 1 }
  refine (checkAll_returns hcrashed visit).mono ?_ fun _ _ hstop => hstop
  rintro _ _ rfl
  exact ⟨_, hcrashed⟩

/-- Whichever operation the dice pick, it returns. -/
theorem operation_returns (hholds : Holds (left + 1) sim) (visit : Visit) (roll : UInt64)
    (mode : Durability) :
    Returns (operation visit roll mode) sim fun _ next => Holds left next := by
  cases mode with
  | strict =>
      simp only [operation]
      split_ifs
      · exact doBegin_returns hholds
      · exact doComplete_returns hholds
      · exact doAdvanceClock_returns hholds
      · exact doCrash_returns hholds visit
  | groupCommit =>
      simp only [operation]
      split_ifs
      · exact doBegin_returns hholds
      · exact doComplete_returns hholds
      · exact doFlush_returns hholds visit
      · exact doAdvanceClock_returns hholds
      · exact doCrash_returns hholds visit

theorem step_returns (hholds : Holds (left + 1) sim) (visit : Visit) :
    Returns (step visit) sim fun _ next => Holds left next := by
  obtain ⟨point, hsound⟩ := hholds
  simp only [step, ends_bind, ends_below (by decide : (100 : UInt64) ≠ 0), ends_get]
  have hdrawn : Holds (left + 1) { sim with rng := (sim.rng.below 100).2 } :=
    ⟨point, hsound.same rfl rfl rfl rfl⟩
  refine (operation_returns hdrawn visit _ _).mono ?_ fun _ _ hstop => hstop
  rintro _ next ⟨after, hafter⟩
  exact ⟨after, hafter.same rfl rfl rfl rfl⟩

theorem run_returns {visits : List Visit} (hholds : Holds visits.length sim) :
    Returns (run visits) sim fun _ next => Holds 0 next := by
  rw [run]
  apply (ends_bind _ _).mpr
  refine (ends_forM (fun rest state => Holds rest.length state) ?_ hholds).mono
    (fun _ _ hend => hend) fun _ _ hstop => hstop
  intro visit rest state hstate
  exact step_returns hstate visit

end Operations

/-! ## Whole simulations -/

/-- A fresh simulation, for as many steps as its clock allows. -/
theorem withMode_holds (seed : UInt64) (mode : Durability) {steps : Nat}
    (hsteps : 1 + 1999 * steps < defaultTtlMs.toNat) :
    ∃ store, Simulation.withMode seed mode = .ok (Simulation.fresh seed mode store) ∧
      Holds steps (Simulation.fresh seed mode store) := by
  obtain ⟨store, hopen, hengine⟩ := openStore_opensTo opensTo_empty mode
  have httl : defaultTtlMs.toNat = 86400000 := rfl
  refine ⟨store, ?_, Point.restart [], hengine, Tracks.fresh mode, hsteps, fun _ => ?_, ?_, ?_⟩
  · rw [Simulation.withMode, hopen]
    rfl
  · have hfence : (Point.restart []).nextFence.toNat = 1 := rfl
    omega
  · change 0 + steps < 2 ^ 64
    omega
  · exact fun worker hworker => absurd hworker List.not_mem_nil

end Onced.Sim
