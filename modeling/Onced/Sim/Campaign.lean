import Onced.Sim.Soundness

/-! # Campaigns and their counters

A campaign runs one simulation per seed and adds up the counters. Every campaign
of runs within the time to live passes in both disciplines. The counters of a
run that passes balance: every token handed out is still held or was presented
exactly once, no step is counted as two operations, and in strict mode no key is
completed twice. One seed starts the generator at zero and exercises nothing.
-/

namespace Onced.Sim

open Std Foundation Wal

/-- One simulation from its seed to its counters. -/
def simulate (seed : UInt64) (mode : Durability) (visits : List Visit) : Except Panic Stats := do
  let sim ← Simulation.withMode seed mode
  match Simulation.run visits sim with
  | .ok stats _ => return stats
  | .error panic _ => throw panic

/-- Simulations of the seeds from `seed` on, their counters folded into `total`. -/
def campaignFrom (mode : Durability) (seed : UInt64) (total : Stats) :
    List (List Visit) → Except Panic Stats
  | [] => .ok total
  | visits :: rest => do
      let stats ← simulate seed mode visits
      campaignFrom mode (seed + 1) (total.accumulate stats) rest

/-- One simulation for each seed from 0 on. -/
def campaign (mode : Durability) (seeds : List (List Visit)) : Except Panic Stats :=
  campaignFrom mode 0 {} seeds

/-! ## Balanced books -/

/-- The part of a simulation its counters are about. -/
structure Books where
  mode : Durability
  inflight : List Inflight
  successfulCompletes : ExtTreeMap UInt64 UInt64
  stats : Stats

def Simulation.books (sim : Simulation) : Books :=
  ⟨sim.mode, sim.inflight, sim.successfulCompletes, sim.stats⟩

/-- Begins, by what became of them. -/
def Stats.begins (stats : Stats) : Nat :=
  stats.runs.toNat + stats.replays.toNat + stats.inProgress.toNat + stats.mismatches.toNat

/-- Completions, by what became of them. -/
def Stats.completions (stats : Stats) : Nat :=
  stats.completesOk.toNat + stats.staleFences.toNat + stats.alreadyCompleted.toNat +
    stats.unknownCompletes.toNat

/-- Everything but clock jumps and completions without a worker. -/
def Stats.operations (stats : Stats) : Nat :=
  stats.begins + stats.completions + stats.crashes.toNat + stats.flushes.toNat

/-- The counters agree with the workers, and count at most `budget` operations. -/
structure Balanced (budget : Nat) (books : Books) : Prop where
  tokens : books.stats.runs.toNat = books.inflight.length + books.stats.completions
  takeovers : books.stats.takeovers.toNat ≤ books.stats.runs.toNat
  operations : books.stats.operations ≤ budget
  indexes : ∀ worker ∈ books.inflight, worker.index < keySpace
  successes : books.mode = .strict →
    books.stats.completesOk.toNat = books.successfulCompletes.size
  once : ∀ {index times : UInt64}, books.successfulCompletes[index]? = some times →
    index < keySpace ∧ times = 1

theorem toNat_succ_le (counter : UInt64) : (counter + 1).toNat ≤ counter.toNat + 1 := by
  rw [UInt64.toNat_add, UInt64.toNat_one]
  exact Nat.mod_le _ _

theorem toNat_succ {counter : UInt64} (hcounter : counter.toNat + 1 < 2 ^ 64) :
    (counter + 1).toNat = counter.toNat + 1 := by
  rw [UInt64.toNat_add, UInt64.toNat_one]
  exact Nat.mod_eq_of_lt hcounter

theorem size_insert_new {completes : ExtTreeMap UInt64 UInt64} {index : UInt64}
    (hnew : index ∉ completes) (times : UInt64) :
    (completes.insert index times).size = completes.size + 1 := by
  rw [ExtTreeMap.size_insert, if_neg (by simpa using hnew)]

theorem once_insert {completes : ExtTreeMap UInt64 UInt64} {index : UInt64}
    (honce : ∀ {other times : UInt64}, completes[other]? = some times →
      other < keySpace ∧ times = 1) (hindex : index < keySpace) {other times : UInt64}
    (hother : (completes.insert index 1)[other]? = some times) : other < keySpace ∧ times = 1 := by
  rw [Outcomes.getElem?_insert] at hother
  split at hother
  next hsame =>
    cases hother
    exact ⟨hsame ▸ hindex, rfl⟩
  next => exact honce hother

namespace Balanced

variable {budget : Nat} {books : Books}

/-- Counting an operation that hands out no token and takes none back. -/
theorem counts (hbalanced : Balanced budget books) {stats : Stats}
    (hruns : stats.runs = books.stats.runs) (htakeovers : stats.takeovers = books.stats.takeovers)
    (hcompletions : stats.completions = books.stats.completions)
    (hsuccesses : stats.completesOk = books.stats.completesOk)
    (hoperations : stats.operations ≤ books.stats.operations + 1) :
    Balanced (budget + 1) { books with stats := stats } where
  tokens := by
    have htokens := hbalanced.tokens
    simp only [hruns, hcompletions]
    exact htokens
  takeovers := by
    simp only [hruns, htakeovers]
    exact hbalanced.takeovers
  operations := Nat.le_trans hoperations (Nat.succ_le_succ hbalanced.operations)
  indexes := hbalanced.indexes
  successes := by
    simp only [hsuccesses]
    exact hbalanced.successes
  once := hbalanced.once

/-- A token is handed out. -/
theorem starts (hbalanced : Balanced budget books) (hbudget : budget + 1 < 2 ^ 64)
    {worker : Inflight} (hindex : worker.index < keySpace) (takeover : Bool) :
    Balanced (budget + 1) { books with
      inflight := books.inflight ++ [worker]
      stats := { books.stats with
        runs := books.stats.runs + 1
        takeovers := if takeover then books.stats.takeovers + 1 else books.stats.takeovers } } := by
  obtain ⟨htokens, htakeovers, hoperations, hindexes, hsuccesses, honce⟩ := hbalanced
  have hruns : (books.stats.runs + 1).toNat = books.stats.runs.toNat + 1 := by
    apply toNat_succ
    simp only [Stats.operations, Stats.begins] at hoperations
    omega
  refine ⟨?_, ?_, ?_, ?_, hsuccesses, honce⟩
  · simp only [hruns, Stats.completions, List.length_append, List.length_singleton] at htokens ⊢
    omega
  · simp only [hruns]
    split
    next =>
      have hsucc := toNat_succ_le books.stats.takeovers
      omega
    next => omega
  · simp only [Stats.operations, Stats.begins, Stats.completions, hruns] at hoperations ⊢
    omega
  · intro other hother
    rcases List.mem_append.mp hother with hold | hnew
    · exact hindexes other hold
    · rwa [List.mem_singleton.mp hnew]

/-- A token is presented and refused. -/
theorem refused (hbalanced : Balanced budget books) {which : Nat}
    (hwhich : which < books.inflight.length) {stats : Stats}
    (hruns : stats.runs = books.stats.runs) (htakeovers : stats.takeovers = books.stats.takeovers)
    (hcompletions : stats.completions = books.stats.completions + 1)
    (hsuccesses : stats.completesOk = books.stats.completesOk)
    (hoperations : stats.operations ≤ books.stats.operations + 1) :
    Balanced (budget + 1) { books with
      inflight := books.inflight.eraseIdx which, stats := stats } where
  tokens := by
    have htokens := hbalanced.tokens
    have hlength := List.length_eraseIdx_of_lt hwhich
    simp only [hruns, hcompletions, hlength]
    omega
  takeovers := by
    simp only [hruns, htakeovers]
    exact hbalanced.takeovers
  operations := Nat.le_trans hoperations (Nat.succ_le_succ hbalanced.operations)
  indexes := fun worker hworker => hbalanced.indexes worker (List.eraseIdx_subset hworker)
  successes := by
    simp only [hsuccesses]
    exact hbalanced.successes
  once := hbalanced.once

/-- A token is presented and accepted. -/
theorem accepted (hbalanced : Balanced budget books) (hbudget : budget + 1 < 2 ^ 64) {which : Nat}
    (hwhich : which < books.inflight.length) {completes : ExtTreeMap UInt64 UInt64}
    (hsize : books.mode = .strict → completes.size = books.successfulCompletes.size + 1)
    (honce : ∀ {index times : UInt64}, completes[index]? = some times →
      index < keySpace ∧ times = 1) :
    Balanced (budget + 1) { books with
      inflight := books.inflight.eraseIdx which
      successfulCompletes := completes
      stats := { books.stats with completesOk := books.stats.completesOk + 1 } } := by
  obtain ⟨htokens, htakeovers, hoperations, hindexes, hsuccesses, -⟩ := hbalanced
  have hok : (books.stats.completesOk + 1).toNat = books.stats.completesOk.toNat + 1 := by
    apply toNat_succ
    simp only [Stats.operations, Stats.completions] at hoperations
    omega
  have hlength := List.length_eraseIdx_of_lt hwhich
  refine ⟨?_, htakeovers, ?_, fun worker hworker =>
    hindexes worker (List.eraseIdx_subset hworker), fun hstrict => ?_, honce⟩
  · simp only [Stats.completions, hok, hlength] at htokens ⊢
    omega
  · simp only [Stats.operations, Stats.begins, Stats.completions, hok] at hoperations ⊢
    omega
  · simp only [hok, hsuccesses hstrict, hsize hstrict]

theorem mono (hbalanced : Balanced budget books) : Balanced (budget + 1) books :=
  { hbalanced with operations := Nat.le_succ_of_le hbalanced.operations }

end Balanced

/-! ## Operations keep the books -/

/-- The books balance after one operation more, and nothing else is counted. -/
structure OneMore (budget : Nat) (books : Books) (next : Simulation) : Prop where
  balanced : Balanced (budget + 1) next.books
  steps : next.stats.steps = books.stats.steps
  mode : next.mode = books.mode

theorem OneMore.of_books {budget : Nat} (before : Books) {books : Books}
    (hmore : Balanced (budget + 1) books ∧ books.stats.steps = before.stats.steps ∧
      books.mode = before.mode) {next : Simulation} (hnext : next.books = books) :
    OneMore budget before next := by
  subst hnext
  exact ⟨hmore.1, hmore.2.1, hmore.2.2⟩

/-- A failed check ends the run, so its books do not matter. -/
abbrev Keeps (budget : Nat) (program : EStateM Panic Simulation Unit) (sim : Simulation) : Prop :=
  Ends program sim (fun _ next => OneMore budget sim.books next) fun _ _ => True

section Operations

open Simulation

variable {budget : Nat} {sim : Simulation}

theorem ends_onEngine_any {α : Type} {call : EStateM Panic (Engine WalStore) α}
    {post : α → Simulation → Prop}
    (hpost : ∀ value engine, post value { sim with engine := engine }) :
    Ends (onEngine call) sim post fun _ _ => True :=
  (ends_onEngine call).mpr (ends_of_forall hpost fun _ _ => trivial)

theorem begun_keeps (hbalanced : Balanced budget sim.books) (hbudget : budget + 1 < 2 ^ 64)
    {index : UInt64} (hindex : index < keySpace) (variant : UInt8) (decision : Begin) :
    Keeps budget (begun index variant decision) sim := by
  have hreplays := toNat_succ_le sim.stats.replays
  have hinProgress := toNat_succ_le sim.stats.inProgress
  have hmismatches := toNat_succ_le sim.stats.mismatches
  cases decision with
  | run token =>
      simp only [begun, ends_bind, ends_get, ends_count, makeOutcome, ends_modifyGet, ends_modify]
      exact ⟨hbalanced.starts hbudget hindex _, rfl, rfl⟩
  | replay outcome =>
      simp only [begun, ends_bind, ends_get, ends_count, ends_require]
      refine ⟨fun _ => ⟨fun _ => ⟨hbalanced.counts rfl rfl rfl rfl ?_, rfl, rfl⟩, fun _ => trivial⟩,
        fun _ => trivial⟩
      simp only [Stats.operations, Stats.begins, Stats.completions, books]
      omega
  | inProgress =>
      refine ⟨hbalanced.counts rfl rfl rfl rfl ?_, rfl, rfl⟩
      simp only [Stats.operations, Stats.begins, Stats.completions, books]
      omega
  | mismatch =>
      refine ⟨hbalanced.counts rfl rfl rfl rfl ?_, rfl, rfl⟩
      simp only [Stats.operations, Stats.begins, Stats.completions, books]
      omega

theorem doBegin_keeps (hbalanced : Balanced budget sim.books) (hbudget : budget + 1 < 2 ^ 64) :
    Keeps budget doBegin sim := by
  have hindex : (sim.rng.below keySpace).1 < keySpace :=
    UInt64.lt_iff_toNat_lt.mpr (Rng.below_lt (by decide) sim.rng)
  simp only [doBegin, ends_bind, ends_below (by decide : keySpace ≠ 0)]
  generalize (sim.rng.below keySpace).1 = index at hindex
  refine (drawVariant_returns _).mono ?_ fun _ _ hstop => hstop.elim
  rintro variant _ ⟨-, rng, rfl⟩
  rw [ends_get]
  apply ends_onEngine_any
  intro decision engine
  apply begun_keeps _ hbudget hindex
  exact hbalanced

/-- Marking an outcome durable is not counted. -/
theorem markDurable_keeps {books : Books} (index : UInt64) (outcome : CachedOutcome)
    (hsim : sim.books = books) :
    Ends (markDurable index outcome) sim (fun _ next => next.books = books) fun _ _ => True := by
  simp only [markDurable, ends_bind, ends_get]
  split
  next => exact (ends_require _ _).mpr ⟨fun _ => hsim, fun _ => trivial⟩
  next => exact hsim

/-- Nor is a check after a crash. -/
theorem checkReplay_keeps {books : Books} (index : UInt64) (expected : CachedOutcome)
    (hsim : sim.books = books) :
    Ends (checkReplay index expected) sim (fun _ next => next.books = books) fun _ _ => True := by
  simp only [checkReplay, ends_bind, ends_get]
  apply ends_onEngine_any
  intro decision engine
  split
  next => exact (ends_require _ _).mpr ⟨fun _ => hsim, fun _ => trivial⟩
  next => trivial

theorem reopen_keeps (sim : Simulation) :
    Ends reopen sim (fun _ next => next.books = sim.books) fun _ _ => True := by
  unfold Ends reopen
  cases openStore sim.engine.store.disk sim.mode <;> trivial

/-- An accepted completion is counted once per key in strict mode, or the run stops. -/
theorem committedBy_keeps (hbalanced : Balanced budget sim.books) (hbudget : budget + 1 < 2 ^ 64)
    {which : Nat} {worker : Inflight} (hwhich : sim.inflight[which]? = some worker)
    (engine : Engine WalStore) :
    Ends (committedBy worker)
      { sim with inflight := sim.inflight.eraseIdx which, engine := engine }
      (fun _ next => OneMore budget sim.books next) fun _ _ => True := by
  have hlength : which < sim.inflight.length := (List.getElem?_eq_some_iff.mp hwhich).1
  have hindex := hbalanced.indexes worker (List.mem_of_getElem? hwhich)
  simp only [committedBy, ends_bind, ends_count, ends_modify, ends_get]
  split
  next =>
    simp only [ends_bind, ends_modify, ends_require]
    refine ⟨fun hfirst => ?_, fun _ => trivial⟩
    have hnew : worker.index ∉ sim.successfulCompletes := by
      intro hmem
      obtain ⟨times, htimes⟩ := Option.isSome_iff_exists.mp
        (ExtTreeMap.mem_iff_isSome_getElem?.mp hmem)
      rw [ExtTreeMap.getD_eq_getD_getElem?, htimes, Option.getD_some,
        (hbalanced.once htimes).2] at hfirst
      exact absurd hfirst (by decide)
    rw [hfirst]
    have hmarked := hbalanced.accepted hbudget hlength (fun _ => size_insert_new hnew 1)
      (once_insert hbalanced.once hindex)
    refine Ends.mono (markDurable_keeps worker.index worker.outcome rfl) ?_ fun _ _ hstop => hstop
    intro _ next hnext
    exact OneMore.of_books sim.books ⟨hmarked, rfl, rfl⟩ hnext
  next hgroup =>
    refine ⟨hbalanced.accepted hbudget hlength ?_ hbalanced.once, rfl, rfl⟩
    intro hstrict
    change sim.mode = .groupCommit at hgroup
    change sim.mode = .strict at hstrict
    rw [hgroup] at hstrict
    cases hstrict

theorem completed_keeps (hbalanced : Balanced budget sim.books) (hbudget : budget + 1 < 2 ^ 64)
    {which : Nat} {worker : Inflight} (hwhich : sim.inflight[which]? = some worker)
    (engine : Engine WalStore) (result : Except CompleteError Unit) :
    Ends (completed worker result)
      { sim with inflight := sim.inflight.eraseIdx which, engine := engine }
      (fun _ next => OneMore budget sim.books next) fun _ _ => True := by
  have hlength : which < sim.inflight.length := (List.getElem?_eq_some_iff.mp hwhich).1
  have hbound := hbalanced.operations
  simp only [Stats.operations, Stats.completions, books] at hbound
  cases result with
  | ok _ => exact committedBy_keeps hbalanced hbudget hwhich engine
  | error refusal =>
      cases refusal with
      | staleFence =>
          have hcounted := @toNat_succ sim.stats.staleFences (by omega)
          refine ⟨hbalanced.refused hlength rfl rfl ?_ rfl ?_, rfl, rfl⟩ <;>
          · simp only [Stats.operations, Stats.begins, Stats.completions, books, hcounted]
            omega
      | alreadyCompleted =>
          have hcounted := @toNat_succ sim.stats.alreadyCompleted (by omega)
          simp only [completed, ends_bind, ends_count, ends_get, ends_require]
          refine ⟨fun _ => ⟨hbalanced.refused hlength rfl rfl ?_ rfl ?_, rfl, rfl⟩,
            fun _ => trivial⟩ <;>
          · simp only [Stats.operations, Stats.begins, Stats.completions, books, hcounted]
            omega
      | unknown =>
          have hcounted := @toNat_succ sim.stats.unknownCompletes (by omega)
          simp only [completed, ends_bind, ends_get]
          split
          next => trivial
          next =>
            refine ⟨hbalanced.refused hlength rfl rfl ?_ rfl ?_, rfl, rfl⟩ <;>
            · simp only [Stats.operations, Stats.begins, Stats.completions, books, hcounted]
              omega

theorem doComplete_keeps (hbalanced : Balanced budget sim.books) (hbudget : budget + 1 < 2 ^ 64) :
    Keeps budget doComplete sim := by
  simp only [doComplete, ends_bind, ends_get]
  split
  next => exact ⟨hbalanced.mono, rfl, rfl⟩
  next =>
    simp only [ends_bind, below, ends_require, ends_modifyGet]
    refine ⟨fun _ => ?_, fun _ => trivial⟩
    generalize sim.rng.below (UInt64.ofNat sim.inflight.length) = drawn
    simp only [takeWorker, ends_bind, ends_get]
    split
    next => trivial
    next worker hworker =>
      simp only [ends_bind, ends_modify, ends_pure]
      apply ends_onEngine_any
      intro result engine
      have hdrawn : Balanced budget { sim with rng := drawn.2 }.books := hbalanced
      exact completed_keeps hdrawn hbudget hworker engine result

theorem doFlush_keeps (hbalanced : Balanced budget sim.books) (visit : Visit) :
    Keeps budget (doFlush visit) sim := by
  have hflushes := toNat_succ_le sim.stats.flushes
  have hcounted : Balanced (budget + 1) { sim.books with
      stats := { sim.stats with flushes := sim.stats.flushes + 1 } } := by
    refine hbalanced.counts rfl rfl rfl rfl ?_
    simp only [Stats.operations, Stats.begins, Stats.completions, books]
    omega
  simp only [doFlush, ends_bind, ends_count]
  apply ends_onEngine_any
  intro _ engine
  rw [ends_get]
  refine (ends_forM (fun _ state => state.books = { sim.books with
    stats := { sim.stats with flushes := sim.stats.flushes + 1 } }) ?_ rfl).mono ?_
      fun _ _ hstop => hstop
  · exact fun entry _ state hstate => markDurable_keeps entry.1 entry.2 hstate
  · exact fun _ next hnext => OneMore.of_books sim.books ⟨hcounted, rfl, rfl⟩ hnext

theorem doCrash_keeps (hbalanced : Balanced budget sim.books) (visit : Visit) :
    Keeps budget (doCrash visit) sim := by
  have hcrashes := toNat_succ_le sim.stats.crashes
  have hcounted : Balanced (budget + 1) { sim.books with
      stats := { sim.stats with crashes := sim.stats.crashes + 1 } } := by
    refine hbalanced.counts rfl rfl rfl rfl ?_
    simp only [Stats.operations, Stats.begins, Stats.completions, books]
    omega
  have hfallBack : ∀ state : Simulation, state.fallBack.books = state.books := by
    intro state
    unfold fallBack
    split <;> rfl
  simp only [doCrash, ends_bind, ends_count]
  refine Ends.mono (reopen_keeps _) ?_ fun _ _ hstop => hstop
  intro _ reopened hreopened
  rw [ends_modify, ends_get]
  refine (ends_forM (fun _ state => state.books = { sim.books with
    stats := { sim.stats with crashes := sim.stats.crashes + 1 } }) ?_ ?_).mono ?_
      fun _ _ hstop => hstop
  · exact fun entry _ state hstate => checkReplay_keeps entry.1 entry.2 hstate
  · exact (hfallBack reopened).trans hreopened
  · exact fun _ next hnext => OneMore.of_books sim.books ⟨hcounted, rfl, rfl⟩ hnext

theorem doAdvanceClock_keeps (hbalanced : Balanced budget sim.books) :
    Keeps budget doAdvanceClock sim := by
  rw [doAdvanceClock]
  apply (ends_bind _ _).mpr
  refine (drawJump_returns sim).mono ?_ fun _ _ hstop => hstop.elim
  rintro jump _ ⟨-, rng, rfl⟩
  exact ⟨hbalanced.mono, rfl, rfl⟩

theorem operation_keeps (hbalanced : Balanced budget sim.books) (hbudget : budget + 1 < 2 ^ 64)
    (visit : Visit) (roll : UInt64) (mode : Durability) :
    Keeps budget (operation visit roll mode) sim := by
  cases mode with
  | strict =>
      simp only [operation]
      split_ifs
      · exact doBegin_keeps hbalanced hbudget
      · exact doComplete_keeps hbalanced hbudget
      · exact doAdvanceClock_keeps hbalanced
      · exact doCrash_keeps hbalanced visit
  | groupCommit =>
      simp only [operation]
      split_ifs
      · exact doBegin_keeps hbalanced hbudget
      · exact doComplete_keeps hbalanced hbudget
      · exact doFlush_keeps hbalanced visit
      · exact doAdvanceClock_keeps hbalanced
      · exact doCrash_keeps hbalanced visit

/-- The books after `done` steps. -/
structure Done (mode : Durability) (done : Nat) (sim : Simulation) : Prop where
  balanced : Balanced done sim.books
  steps : sim.stats.steps.toNat = done
  mode : sim.mode = mode

theorem step_keeps {mode : Durability} {done : Nat} (hdone : Done mode done sim)
    (hlast : done + 1 < 2 ^ 64) (visit : Visit) :
    Ends (step visit) sim (fun _ next => Done mode (done + 1) next) fun _ _ => True := by
  simp only [step, ends_bind, ends_below (by decide : (100 : UInt64) ≠ 0), ends_get]
  have hdrawn : Balanced done { sim with rng := (sim.rng.below 100).2 }.books := hdone.balanced
  refine (operation_keeps hdrawn hlast visit _ _).mono ?_ fun _ _ hstop => hstop
  intro _ next hnext
  obtain ⟨htokens, htakeovers, hoperations, hindexes, hsuccesses, honce⟩ := hnext.balanced
  have hsteps : next.stats.steps = sim.stats.steps := hnext.steps
  refine ⟨⟨htokens, htakeovers, hoperations, hindexes, hsuccesses, honce⟩, ?_,
    hnext.mode.trans hdone.mode⟩
  change (next.stats.steps + 1).toNat = _
  rw [hsteps, toNat_succ (by rw [hdone.steps]; exact hlast), hdone.steps]

theorem run_keeps {mode : Durability} {done : Nat} (hdone : Done mode done sim)
    (visits : List Visit) (hlast : done + visits.length < 2 ^ 64) :
    Ends (run visits) sim (fun stats next => stats = next.stats ∧
      Done mode (done + visits.length) next) fun _ _ => True := by
  rw [run]
  apply (ends_bind _ _).mpr
  refine (ends_forM (fun rest state => ∃ before, before + rest.length = done + visits.length ∧
    Done mode before state) ?_ ⟨done, rfl, hdone⟩).mono ?_ fun _ _ hstop => hstop
  · rintro visit rest state ⟨before, hbefore, hstate⟩
    rw [List.length_cons] at hbefore
    refine (step_keeps hstate (by omega) visit).mono ?_ fun _ _ hstop => hstop
    exact fun _ next hnext => ⟨before + 1, by omega, hnext⟩
  · rintro _ next ⟨before, hbefore, hnext⟩
    rw [List.length_nil, Nat.add_zero] at hbefore
    exact ⟨rfl, hbefore ▸ hnext⟩

end Operations

/-! ## Whole runs -/

section Runs

open Simulation

theorem fresh_done (seed : UInt64) (mode : Durability) (store : WalStore) :
    Done mode 0 (fresh seed mode store) := by
  refine ⟨⟨rfl, Nat.le_refl _, Nat.le_refl _, fun _ hworker => absurd hworker List.not_mem_nil,
    fun _ => rfl, ?_⟩, rfl, rfl⟩
  intro index times htimes
  simp [books, fresh] at htimes

/-- Only so many keys can be completed. -/
theorem size_le_keySpace {completes : ExtTreeMap UInt64 UInt64}
    (hkeys : ∀ {index times : UInt64}, completes[index]? = some times → index < keySpace) :
    completes.size ≤ 8 := by
  have hnodup : (completes.keys.map UInt64.toNat).Nodup :=
    completes.nodup_keys.map fun _ _ hsame => UInt64.toNat_inj.mp hsame
  have hsubset : completes.keys.map UInt64.toNat ⊆ List.range 8 := by
    intro number hnumber
    obtain ⟨index, hindex, rfl⟩ := List.mem_map.mp hnumber
    obtain ⟨times, htimes⟩ := Option.isSome_iff_exists.mp
      (ExtTreeMap.mem_iff_isSome_getElem?.mp (ExtTreeMap.mem_keys.mp hindex))
    exact List.mem_range.mpr (UInt64.lt_iff_toNat_lt.mp (hkeys htimes))
  have hlength := (List.subperm_of_subset hnodup hsubset).length_le
  rwa [List.length_map, ExtTreeMap.length_keys, List.length_range] at hlength

/-- On any log, the counters of a run that passes balance: every token handed out is still held
or was presented exactly once, and no step counts as two operations. In a strict run the
completions that were accepted are one for each key that has any. -/
theorem counters_balance (seed : UInt64) (mode : Durability) (store : WalStore)
    (visits : List Visit) (hlength : visits.length < 2 ^ 64) {stats : Stats} {last : Simulation}
    (hrun : run visits (fresh seed mode store) = .ok stats last) :
    stats.steps.toNat = visits.length ∧
      stats.runs.toNat = last.inflight.length + stats.completions ∧
      stats.takeovers ≤ stats.runs ∧ stats.operations ≤ stats.steps.toNat ∧
      (mode = .strict →
        stats.completesOk.toNat = last.successfulCompletes.size ∧ stats.completesOk.toNat ≤ 8 ∧
        ∀ index times, last.successfulCompletes[index]? = some times →
          index < keySpace ∧ times = 1) := by
  have hkeeps := run_keeps (fresh_done seed mode store) visits (by omega)
  rw [ends_of_eq_ok hrun, Nat.zero_add] at hkeeps
  obtain ⟨rfl, hdone⟩ := hkeeps
  refine ⟨hdone.steps, hdone.balanced.tokens,
    UInt64.le_iff_toNat_le.mpr hdone.balanced.takeovers, ?_, fun hstrict => ?_⟩
  · rw [hdone.steps]
    exact hdone.balanced.operations
  · have hsuccesses := hdone.balanced.successes (hdone.mode.trans hstrict)
    have hsize := size_le_keySpace fun htimes => (hdone.balanced.once htimes).1
    exact ⟨hsuccesses, hsuccesses.trans_le hsize, fun _ _ htimes => hdone.balanced.once htimes⟩

/-- A simulation within the time to live passes, and has taken its steps. -/
theorem simulate_passes (seed : UInt64) (mode : Durability) {visits : List Visit}
    (hsteps : 1 + 1999 * visits.length < defaultTtlMs.toNat) :
    ∃ stats, simulate seed mode visits = .ok stats ∧
      stats.steps = UInt64.ofNat visits.length := by
  obtain ⟨store, hstart, hholds⟩ := withMode_holds seed mode hsteps
  obtain ⟨stats, last, hrun, -⟩ := returns_iff.mp (run_returns hholds)
  have httl : defaultTtlMs.toNat = 86400000 := rfl
  have hkeeps := run_keeps (fresh_done seed mode store) visits (by omega)
  rw [ends_of_eq_ok hrun, Nat.zero_add] at hkeeps
  refine ⟨stats, ?_, ?_⟩
  · simp [simulate, hstart, hrun, bind, Except.bind, pure, Except.pure]
  · rw [hkeeps.1, ← hkeeps.2.steps, UInt64.ofNat_toNat]

theorem campaignFrom_passes (mode : Durability) {seeds : List (List Visit)}
    (hsteps : ∀ visits ∈ seeds, 1 + 1999 * visits.length < defaultTtlMs.toNat) (seed : UInt64)
    (total : Stats) :
    ∃ sum, campaignFrom mode seed total seeds = .ok sum ∧
      sum.steps = total.steps + UInt64.ofNat (seeds.map List.length).sum := by
  induction seeds generalizing seed total with
  | nil => exact ⟨total, rfl, by simp⟩
  | cons visits rest ih =>
      obtain ⟨stats, hstats, hcount⟩ :=
        simulate_passes seed mode (hsteps visits List.mem_cons_self)
      obtain ⟨sum, hsum, hsteps⟩ := ih (fun other hother =>
        hsteps other (List.mem_cons_of_mem _ hother)) (seed + 1) (total.accumulate stats)
      refine ⟨sum, ?_, ?_⟩
      · rw [campaignFrom, hstats]
        exact hsum
      · rw [hsteps, List.map_cons, List.sum_cons, UInt64.ofNat_add]
        simp only [Stats.accumulate, hcount]
        ac_rfl

/-- Whatever the discipline and the order in which maps are walked, and however many seeds, a
campaign whose runs stay within the time to live passes every check and counts every step. -/
theorem campaign_passes (mode : Durability) (seeds : List (List Visit))
    (hsteps : ∀ visits ∈ seeds, 1 + 1999 * visits.length < defaultTtlMs.toNat) :
    ∃ total, campaign mode seeds = .ok total ∧
      total.steps = UInt64.ofNat (seeds.map List.length).sum := by
  obtain ⟨total, htotal, hcount⟩ := campaignFrom_passes mode hsteps 0 {}
  refine ⟨total, htotal, ?_⟩
  rw [hcount]
  exact UInt64.zero_add _

/-- The default soak: two hundred seeds of two thousand steps. -/
theorem campaign_passes_soak :
    ∃ total, campaign .groupCommit (List.replicate 200 (List.replicate 2000 Visit.listed)) =
        .ok total ∧ total.steps = 400000 := by
  have hsteps : ∀ visits ∈ List.replicate 200 (List.replicate 2000 Visit.listed),
      1 + 1999 * visits.length < defaultTtlMs.toNat := by
    intro visits hvisits
    rw [List.eq_of_mem_replicate hvisits, List.length_replicate]
    decide
  obtain ⟨total, htotal, hcount⟩ := campaign_passes .groupCommit _ hsteps
  refine ⟨total, htotal, ?_⟩
  rw [hcount, List.map_replicate, List.sum_replicate, List.length_replicate]
  rfl

/-- A strict run of four hundred steps. -/
theorem counters_balance_strict :
    ∃ store stats last, run (List.replicate 400 Visit.listed) (fresh 0 .strict store) =
        .ok stats last ∧ stats.steps.toNat = 400 ∧ stats.completesOk.toNat ≤ 8 ∧
      ∀ times, last.successfulCompletes[(0 : UInt64)]? = some times → times = 1 := by
  obtain ⟨store, -, hholds⟩ := withMode_holds 0 .strict (by decide : 1 + 1999 * 400 < _)
  rw [← List.length_replicate (n := 400) (a := Visit.listed)] at hholds
  obtain ⟨stats, last, hrun, -⟩ := returns_iff.mp (run_returns hholds)
  have hbalance := counters_balance 0 .strict store (List.replicate 400 Visit.listed)
    (by rw [List.length_replicate]; decide) hrun
  rw [List.length_replicate] at hbalance
  obtain ⟨hsteps, -, -, -, hstrict⟩ := hbalance
  obtain ⟨-, hfew, honce⟩ := hstrict rfl
  exact ⟨store, stats, last, hrun, hsteps, hfew, fun times htimes => (honce 0 times htimes).2⟩

/-! ## The seed that exercises nothing -/

/-- The generator is at zero, the clock has not moved, and the one token is held. -/
structure Stuck (steps : Nat) (sim : Simulation) : Prop where
  rng : sim.rng = ⟨0⟩
  clock : sim.nowMs = 1
  ttl : sim.engine.ttlMs = defaultTtlMs
  locked : ∃ fence, Store.get sim.engine.store (keyOf 0) =
    some (.inProgress fence (fingerprintOf 0 0) 1001)
  stats : sim.stats = { steps := UInt64.ofNat (steps + 1), runs := 1
                        inProgress := UInt64.ofNat steps }

section Stuck

variable {sim : Simulation} {stop : Panic → Simulation → Prop}

/-- Every draw of a generator at zero is zero and leaves it there. -/
theorem ends_below_zero (hrng : sim.rng = ⟨0⟩) {n : UInt64} (hpos : n ≠ 0)
    {post : UInt64 → Simulation → Prop} : Ends (below n) sim post stop ↔ post 0 sim := by
  have hzero : Rng.below n ⟨0⟩ = (0, ⟨0⟩) := by
    rw [Rng.below, show Rng.nextU64 ⟨0⟩ = (0, ⟨0⟩) from rfl]
    simp
  rw [ends_below hpos, hrng, hzero, ← hrng]

theorem ends_drawVariant_zero (hrng : sim.rng = ⟨0⟩) {post : UInt8 → Simulation → Prop} :
    Ends drawVariant sim post stop ↔ post 0 sim := by
  simp only [drawVariant, ends_bind, ends_get]
  split
  next => rw [ends_map, ends_below_zero hrng (by decide : (2 : UInt64) ≠ 0)]; rfl
  next => exact Iff.rfl

/-- A step with the generator at zero begins the first key under its first fingerprint. -/
theorem ends_step_zero (hrng : sim.rng = ⟨0⟩) (visit : Visit)
    {post : Unit → Simulation → Prop} :
    Ends (step visit) sim post stop ↔
      Ends (onEngine (Engine.begin .done (keyOf 0) (fingerprintOf 0 0) sim.nowMs)) sim
        (fun decision next => Ends (begun 0 0 decision) next (fun _ last => post ()
          { last with stats := { last.stats with steps := last.stats.steps + 1 } }) stop) stop := by
  have hoperation : operation visit 0 sim.mode = doBegin := by
    cases sim.mode <;> rfl
  simp only [step, ends_bind, ends_below_zero hrng (by decide : (100 : UInt64) ≠ 0), ends_get,
    hoperation, doBegin, ends_below_zero hrng (by decide : keySpace ≠ 0),
    ends_drawVariant_zero hrng, ends_count]

theorem Stuck.step {steps : Nat} (hstuck : Stuck steps sim) (visit : Visit) :
    Returns (step visit) sim fun _ next => Stuck (steps + 1) next := by
  obtain ⟨hrng, hclock, httl, ⟨fence, hlocked⟩, hstats⟩ := hstuck
  have hbegin : Engine.begin .done (keyOf 0) (fingerprintOf 0 0) sim.nowMs sim.engine =
      .ok .inProgress sim.engine := by
    have haction : Engine.action sim.engine.ttlMs (fingerprintOf 0 0) sim.nowMs
        (Store.get sim.engine.store (keyOf 0)) = .inProgress := by
      rw [hlocked, hclock]
      simp [Engine.action]
    simp only [Engine.begin, bind, EStateM.bind, get, getThe, MonadStateOf.get, EStateM.get,
      haction]
    rfl
  apply (ends_step_zero hrng visit).mpr
  apply (ends_onEngine _).mpr
  rw [ends_of_eq_ok hbegin]
  refine ⟨hrng, hclock, httl, ⟨fence, hlocked⟩, ?_⟩
  simp [hstats, UInt64.ofNat_add]

theorem Stuck.run {steps : Nat} {visits : List Visit} (hstuck : Stuck steps sim) :
    Returns (visits.forM Simulation.step) sim fun _ last => Stuck (steps + visits.length) last := by
  refine (ends_forM (fun rest state => ∃ before, before + rest.length = steps + visits.length ∧
    Stuck before state) ?_ ⟨steps, rfl, hstuck⟩).mono ?_ fun _ _ hstop => hstop
  · rintro visit rest state ⟨before, hbefore, hstate⟩
    rw [List.length_cons] at hbefore
    refine (hstate.step visit).mono ?_ fun _ _ hstop => hstop
    exact fun _ next hnext => ⟨before + 1, by omega, hnext⟩
  · rintro _ last ⟨before, hbefore, hlast⟩
    rw [List.length_nil, Nat.add_zero] at hbefore
    exact hbefore ▸ hlast

/-- The first step takes the token that every later one waits for. -/
theorem stuck_first {mode : Durability} {store : WalStore}
    (hengine : Node.Represents mode.setup (Engine.new store leaseMs) (Point.restart []))
    (visit : Visit) :
    Returns (Simulation.step visit) (fresh Rng.whitening mode store) fun _ next =>
      Stuck 0 next := by
  have hstates : (Point.restart []).states (keyOf 0) = none := by
    rw [Point.states_restart]
    exact ExtTreeMap.getElem?_empty
  have haction : Engine.action mode.setup.ttlMs (fingerprintOf 0 0) 1
      ((Point.restart []).states (keyOf 0)) = .start := by
    rw [hstates]
    rfl
  obtain ⟨engine, hbegin, hnext⟩ :=
    hengine.begin_starts (fits_begin (by decide : (0 : UInt64) < keySpace) _ _) haction
  have hlocked : Store.get engine.store (keyOf 0) = _ :=
    (congrFun hnext.states (keyOf 0)).trans (by rw [Point.states_wrote, written_self])
  have httl : engine.ttlMs = defaultTtlMs := hnext.ttlMs.trans (by cases mode <;> rfl)
  have hlease : saturatingAdd 1 mode.setup.leaseMs = 1001 := by cases mode <;> decide
  rw [hlease] at hlocked
  have hrng : (fresh Rng.whitening mode store).rng = ⟨0⟩ := by
    simp [fresh, Rng.new]
  apply (ends_step_zero hrng visit).mpr
  apply (ends_onEngine _).mpr
  rw [ends_of_eq_ok (by exact hbegin)]
  simp only [begun, ends_bind, ends_get, ends_count, makeOutcome, ends_modifyGet, ends_modify]
  exact ⟨hrng, rfl, httl, ⟨_, hlocked⟩, rfl⟩

/-- The seed that whitening sends to zero begins one key and then waits for it, in both
disciplines and however long the run. -/
theorem whitening_seed_only_waits (mode : Durability) (visit : Visit) (visits : List Visit) :
    simulate Rng.whitening mode (visit :: visits) =
      .ok { steps := UInt64.ofNat (visits.length + 1), runs := 1
            inProgress := UInt64.ofNat visits.length } := by
  obtain ⟨store, hopen, hengine⟩ := openStore_opensTo opensTo_empty mode
  have hstart : withMode Rng.whitening mode = .ok (fresh Rng.whitening mode store) := by
    rw [withMode, hopen]
    rfl
  have hreturns : Returns (run (visit :: visits)) (fresh Rng.whitening mode store)
      fun stats _ => stats = { steps := UInt64.ofNat (visits.length + 1), runs := 1
                               inProgress := UInt64.ofNat visits.length } := by
    change Returns ((Simulation.step visit >>= fun _ => visits.forM Simulation.step) >>= _) _ _
    simp only [ends_bind]
    refine (stuck_first hengine visit).mono ?_ fun _ _ hstop => hstop
    intro _ next hnext
    refine hnext.run.mono ?_ fun _ _ hstop => hstop
    intro _ last hlast
    rw [Nat.zero_add] at hlast
    exact hlast.stats
  obtain ⟨stats, last, hrun, rfl⟩ := returns_iff.mp hreturns
  simp [simulate, hstart, hrun, bind, Except.bind, pure, Except.pure]

end Stuck

end Runs

end Onced.Sim
