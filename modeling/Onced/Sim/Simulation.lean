import Onced.Foundation.Ends
import Onced.Sim.Rng
import Onced.Wal.Node

/-! # The deterministic simulator

A seeded generator drives an engine over a write-ahead log through begins,
completions, clock jumps, flushes and crashes, beside oracles that remember
what was committed and what is durable. A check that fails is a panic. Workers
hold run tokens and outlive crashes. What the simulator asks of the disk is
done, and the order in which it walks a hash map is supplied from outside.
-/

namespace Onced.Sim

open Std Foundation Wal

/-- How many keys the workers contend over. -/
def keySpace : UInt64 := 8

def leaseMs : UInt64 := 1000

/-- Counters of what a run exercised. -/
structure Stats where
  steps : UInt64 := 0
  runs : UInt64 := 0
  replays : UInt64 := 0
  inProgress : UInt64 := 0
  completesOk : UInt64 := 0
  staleFences : UInt64 := 0
  alreadyCompleted : UInt64 := 0
  crashes : UInt64 := 0
  takeovers : UInt64 := 0
  /-- Flushes, in group-commit mode only. -/
  flushes : UInt64 := 0
  /-- Completions refused because their begin was lost in a crash. -/
  unknownCompletes : UInt64 := 0
  /-- Begins that met a live key of another fingerprint. -/
  mismatches : UInt64 := 0
  deriving DecidableEq

/-- Fold the counters of another run into these. -/
def Stats.accumulate (stats other : Stats) : Stats where
  steps := stats.steps + other.steps
  runs := stats.runs + other.runs
  replays := stats.replays + other.replays
  inProgress := stats.inProgress + other.inProgress
  completesOk := stats.completesOk + other.completesOk
  staleFences := stats.staleFences + other.staleFences
  alreadyCompleted := stats.alreadyCompleted + other.alreadyCompleted
  crashes := stats.crashes + other.crashes
  takeovers := stats.takeovers + other.takeovers
  flushes := stats.flushes + other.flushes
  unknownCompletes := stats.unknownCompletes + other.unknownCompletes
  mismatches := stats.mismatches + other.mismatches

/-- The durability discipline of the log under simulation. -/
inductive Durability where
  | strict
  | groupCommit
  deriving DecidableEq

/-- A worker with a run token and the outcome it means to commit. -/
structure Inflight where
  index : UInt64
  token : RunToken
  outcome : CachedOutcome
  /-- Which of the two fingerprints the worker presented. -/
  fpVariant : UInt8
  deriving DecidableEq

abbrev Outcomes := ExtTreeMap UInt64 CachedOutcome

/-- The order in which a map of outcomes happens to be walked. -/
structure Visit where
  order : List (UInt64 × CachedOutcome) → List (UInt64 × CachedOutcome)
  perm : ∀ entries, (order entries).Perm entries

/-- Walk in key order. -/
def Visit.listed : Visit := ⟨id, fun _ => List.Perm.refl _⟩

structure Simulation where
  seed : UInt64
  mode : Durability
  rng : Rng
  engine : Engine WalStore
  nowMs : UInt64
  inflight : List Inflight
  /-- Oracle: the outcome a replay must return now. -/
  committed : Outcomes
  /-- Oracle: the outcome that is on disk. -/
  durable : Outcomes
  /-- Oracle: the fingerprint under which the outcome was committed. -/
  committedFp : ExtTreeMap UInt64 UInt8
  /-- Oracle: how often a completion succeeded. -/
  successfulCompletes : ExtTreeMap UInt64 UInt64
  nextBody : UInt64
  stats : Stats

def keyOf (index : UInt64) : IdempotencyKey := ⟨"key-" ++ toString index.toNat⟩

/-- One of two stable fingerprints of a key. -/
def fingerprintOf (index : UInt64) (variant : UInt8) : RequestFingerprint :=
  ⟨⟨leBytes 8 index.toNat ++ variant :: List.replicate 23 0, by simp⟩⟩

def beginName : Begin → String
  | .run _ => "Run"
  | .replay _ => "Replay"
  | .inProgress => "InProgress"
  | .mismatch => "Mismatch"

/-- The panic of an `expect` on a log that does not open. -/
def openPanic (message : String) (failure : InvalidData) : Panic :=
  message ++ ": Custom \x7b kind: InvalidData, error: \"" ++ failure.message ++ "\" \x7d"

/-- Open the log in the discipline of the simulation. -/
def openStore (disk : List UInt8) : Durability → Except Panic WalStore
  | .strict => (WalStore.openWith disk true).mapError (openPanic "open strict sim wal")
  | .groupCommit => (WalStore.openWith disk false).mapError (openPanic "open buffered sim wal")

namespace Simulation

/-- The panic of a failed check, which names the seed. -/
def violation (sim : Simulation) (message : String) : Panic :=
  "seed " ++ toString sim.seed.toNat ++ ": " ++ message

/-- A simulation that starts on an opened log. -/
def fresh (seed : UInt64) (mode : Durability) (store : WalStore) : Simulation where
  seed := seed
  mode := mode
  rng := Rng.new seed
  engine := Engine.new store leaseMs
  nowMs := 1
  inflight := []
  committed := ∅
  durable := ∅
  committedFp := ∅
  successfulCompletes := ∅
  nextBody := 0
  stats := {}

/-- A simulation on a log file of its own. -/
def withMode (seed : UInt64) (mode : Durability) : Except Panic Simulation := do
  let store ← openStore [] mode
  return fresh seed mode store

def below (n : UInt64) : EStateM Panic Simulation UInt64 := do
  require (n ≠ 0) "attempt to calculate the remainder with a divisor of zero"
  modifyGet fun sim => ((sim.rng.below n).1, { sim with rng := (sim.rng.below n).2 })

/-- Run a call of the engine inside the simulation. -/
def onEngine {α : Type} : EStateM Panic (Engine WalStore) α → EStateM Panic Simulation α :=
  focus engine fun sim engine => { sim with engine := engine }

def count (f : Stats → Stats) : EStateM Panic Simulation Unit :=
  modify fun sim => { sim with stats := f sim.stats }

/-- Record a durable outcome, which must never change. -/
def markDurable (index : UInt64) (outcome : CachedOutcome) : EStateM Panic Simulation Unit := do
  let sim ← get
  match sim.durable[index]? with
  | some existing =>
      require (existing = outcome) (sim.violation ("durable outcome for key " ++
        toString index.toNat ++ " changed -- durable exactly-once is violated"))
  | none => modify fun sim => { sim with durable := sim.durable.insert index outcome }

/-- Flush the log; every committed outcome is then on disk. -/
def doFlush (visit : Visit) : EStateM Panic Simulation Unit := do
  count fun stats => { stats with flushes := stats.flushes + 1 }
  onEngine (Engine.flush .done)
  let sim ← get
  (visit.order sim.committed.toList).forM fun entry => markDurable entry.1 entry.2

def makeOutcome : EStateM Panic Simulation CachedOutcome :=
  modifyGet fun sim =>
    (⟨200, ∅, leBytes 8 (sim.nextBody + 1).toNat⟩, { sim with nextBody := sim.nextBody + 1 })

/-- The fingerprint a begin presents: one of two in strict mode, always the first in group
commit. -/
def drawVariant : EStateM Panic Simulation UInt8 := do
  let sim ← get
  match sim.mode with
  | .strict => UInt64.toUInt8 <$> below 2
  | .groupCommit => pure 0

/-- What the simulator makes of the engine's decision on a begin. -/
def begun (index : UInt64) (variant : UInt8) : Begin → EStateM Panic Simulation Unit
  | .run token => do
      let sim ← get
      -- a token issued while another worker holds one is a takeover
      let hadInflight := sim.inflight.any fun worker => worker.index == index
      count fun stats => { stats with
        runs := stats.runs + 1
        takeovers := if hadInflight then stats.takeovers + 1 else stats.takeovers }
      let outcome ← makeOutcome
      modify fun sim => { sim with inflight := sim.inflight ++ [⟨index, token, outcome, variant⟩] }
  | .replay outcome => do
      count fun stats => { stats with replays := stats.replays + 1 }
      let sim ← get
      require (sim.committed[index]? = some outcome) (sim.violation
        ("replay returned an outcome the oracle never committed for key " ++
          toString index.toNat))
      require (sim.committedFp[index]? = some variant) (sim.violation ("key " ++
        toString index.toNat ++
        " replayed across a DIFFERENT fingerprint -- mismatch safety is violated"))
  | .inProgress => count fun stats => { stats with inProgress := stats.inProgress + 1 }
  | .mismatch => count fun stats => { stats with mismatches := stats.mismatches + 1 }

def doBegin : EStateM Panic Simulation Unit := do
  let index ← below keySpace
  let variant ← drawVariant
  let sim ← get
  let decision ← onEngine (Engine.begin .done (keyOf index) (fingerprintOf index variant)
    sim.nowMs)
  begun index variant decision

/-- A completion that the engine accepted. -/
def committedBy (worker : Inflight) : EStateM Panic Simulation Unit := do
  count fun stats => { stats with completesOk := stats.completesOk + 1 }
  modify fun sim => { sim with
    committed := sim.committed.insert worker.index worker.outcome
    committedFp := sim.committedFp.insert worker.index worker.fpVariant }
  let sim ← get
  match sim.mode with
  | .strict => do
      let times := sim.successfulCompletes.getD worker.index 0 + 1
      modify fun sim => { sim with
        successfulCompletes := sim.successfulCompletes.insert worker.index times }
      require (times = 1) (sim.violation ("key " ++ toString worker.index.toNat ++
        " was successfully completed " ++ toString times.toNat ++
        " times -- strict exactly-once is violated"))
      markDurable worker.index worker.outcome
  | .groupCommit => pure ()

/-- What the simulator makes of the engine's answer to a completion. -/
def completed (worker : Inflight) : Except CompleteError Unit → EStateM Panic Simulation Unit
  | .ok () => committedBy worker
  | .error .staleFence =>
      count fun stats => { stats with staleFences := stats.staleFences + 1 }
  | .error .alreadyCompleted => do
      count fun stats => { stats with alreadyCompleted := stats.alreadyCompleted + 1 }
      let sim ← get
      require (worker.index ∈ sim.committed) (sim.violation
        ("complete reported AlreadyCompleted for key " ++ toString worker.index.toNat ++
          ", but the oracle has no commit"))
  | .error .unknown => do
      let sim ← get
      match sim.mode with
      | .strict => throw (sim.violation ("unexpected Unknown completing key " ++
          toString worker.index.toNat))
      | .groupCommit =>
          count fun stats => { stats with unknownCompletes := stats.unknownCompletes + 1 }

/-- `Vec::remove`. -/
def takeWorker (which : Nat) : EStateM Panic Simulation Inflight := do
  let sim ← get
  match sim.inflight[which]? with
  | none => throw ("removal index (is " ++ toString which ++ ") should be < len (is " ++
      toString sim.inflight.length ++ ")")
  | some worker =>
      modify fun sim => { sim with inflight := sim.inflight.eraseIdx which }
      return worker

def doComplete : EStateM Panic Simulation Unit := do
  let sim ← get
  if sim.inflight.isEmpty then pure ()
  else do
    let which ← below (UInt64.ofNat sim.inflight.length)
    let worker ← takeWorker which.toNat
    let result ← onEngine (Engine.complete .done worker.token worker.outcome sim.nowMs)
    completed worker result

/-- A small step of the clock, or one past the lease. -/
def drawJump : EStateM Panic Simulation UInt64 := do
  let coin ← below 2
  if coin = 0 then (· + 1) <$> below (leaseMs / 2)
  else (leaseMs + ·) <$> below leaseMs

def doAdvanceClock : EStateM Panic Simulation Unit := do
  let jump ← drawJump
  modify fun sim => { sim with nowMs := sim.nowMs + jump }

/-- Drop the engine and recover it from its log file. -/
def reopen : EStateM Panic Simulation Unit := fun sim =>
  match openStore sim.engine.store.disk sim.mode with
  | .ok store => .ok () { sim with engine := Engine.new store leaseMs }
  | .error panic => .error panic sim

/-- After a crash a committed key must replay its outcome. -/
def checkReplay (index : UInt64) (expected : CachedOutcome) :
    EStateM Panic Simulation Unit := do
  let sim ← get
  let variant := sim.committedFp[index]?.getD 0
  let decision ← onEngine (Engine.begin .done (keyOf index) (fingerprintOf index variant)
    sim.nowMs)
  match decision with
  | .replay got => require (got = expected) (sim.violation ("durability violated -- key " ++
      toString index.toNat ++ " replayed the wrong outcome after crash"))
  | other => throw (sim.violation ("durability violated -- committed key " ++
      toString index.toNat ++ " did not replay after crash (got " ++ beginName other ++ ")"))

/-- A crash loses every write that was not flushed. -/
def fallBack (sim : Simulation) : Simulation :=
  if sim.mode = .groupCommit then { sim with committed := sim.durable } else sim

def doCrash (visit : Visit) : EStateM Panic Simulation Unit := do
  count fun stats => { stats with crashes := stats.crashes + 1 }
  reopen
  modify fallBack
  let sim ← get
  (visit.order sim.committed.toList).forM fun entry => checkReplay entry.1 entry.2

/-- The operation a roll of the dice picks. -/
def operation (visit : Visit) (roll : UInt64) : Durability → EStateM Panic Simulation Unit
  | .strict =>
      if roll ≤ 39 then doBegin
      else if roll ≤ 69 then doComplete
      else if roll ≤ 84 then doAdvanceClock
      else doCrash visit
  | .groupCommit =>
      if roll ≤ 34 then doBegin
      else if roll ≤ 59 then doComplete
      else if roll ≤ 74 then doFlush visit
      else if roll ≤ 84 then doAdvanceClock
      else doCrash visit

def step (visit : Visit) : EStateM Panic Simulation Unit := do
  let roll ← below 100
  let sim ← get
  operation visit roll sim.mode
  count fun stats => { stats with steps := stats.steps + 1 }

/-- As many steps as there are visits, one for each. -/
def run (visits : List Visit) : EStateM Panic Simulation Stats := do
  visits.forM step
  let sim ← get
  return sim.stats

end Simulation

end Onced.Sim
