import Onced.Wal.Node

/-! # A completed key stays completed

Once a completion has reached the disk, no crash can undo it: every index a
crash may bring back holds the outcome. Only a begin of the key or a prune
after the outcome's time to live can end this, so until then every retry is
answered from the record and no worker can complete the key again.
-/

namespace Onced.Event

/-- A begin of `key`, or a prune, at or after `deadline`. -/
def Expires (key : IdempotencyKey) (deadline : UInt64) : Event → Prop
  | .call _ engineCall => engineCall.Expires key deadline
  | .crash => False

instance (key : IdempotencyKey) (deadline : UInt64) (event : Event) :
    Decidable (event.Expires key deadline) :=
  match event with
  | .call _ (.begin begun _ nowMs) => inferInstanceAs (Decidable (begun = key ∧ deadline ≤ nowMs))
  | .call _ (.pruneExpired _ nowMs) => inferInstanceAs (Decidable (deadline ≤ nowMs))
  | .call _ (.complete ..) => inferInstanceAs (Decidable False)
  | .call _ .flush => inferInstanceAs (Decidable False)
  | .crash => inferInstanceAs (Decidable False)

/-- A flush or a prune: once it has returned, nothing is buffered. -/
def Syncs : Event → Prop
  | .call _ .flush => True
  | .call _ (.pruneExpired ..) => True
  | _ => False

end Onced.Event

namespace Onced.Wal

open Foundation

/-- Everything written before these events is on disk after them: puts sync by
themselves, or a flush or prune among the events returned before any crash. -/
def Synced (syncEach : Bool) (events : List Event) (answers : List (Option Answer)) : Prop :=
  syncEach = true ∨ ∃ before sync rest, events = before ++ sync :: rest ∧ sync.Syncs ∧
    none ∉ answers.take (before.length + 1)

section Invariant

variable {setup : Setup} {point next : Point} {event : Event} {answer : Option Answer}
  {key : IdempotencyKey} {fingerprint : RequestFingerprint} {outcome : CachedOutcome}
  {completedAtMs : UInt64}

/-- The record of a completed key. -/
abbrev completedRecord (key : IdempotencyKey) (fingerprint : RequestFingerprint)
    (outcome : CachedOutcome) (completedAtMs : UInt64) (index : Index) : Prop :=
  index[key]? = some (.completed fingerprint outcome completedAtMs)

/-- The store call of a live event keeps the record in any index. -/
theorem completedRecord_kept {call : EngineCall}
    (hstate : point.states key = some (.completed fingerprint outcome completedAtMs))
    (hlive : ¬ call.Expires key (saturatingAdd completedAtMs setup.ttlMs)) {storeCall : StoreCall}
    (hplan : (point.plan setup call).storeCall = some storeCall) (index : Index)
    (hindex : completedRecord key fingerprint outcome completedAtMs index) :
    completedRecord key fingerprint outcome completedAtMs (Ledger.indexAfter index storeCall) := by
  have heffect := EngineCall.effect_completed hstate hlive (EngineCall.makes_of_plan hplan)
  rw [completedRecord, Ledger.getElem?_indexAfter, hindex]
  exact heffect

/-- Before it is on disk, the record stays as long as calls return. -/
theorem moves_keeps_volatile {reply : Answer}
    (hstate : point.states key = some (.completed fingerprint outcome completedAtMs))
    (hlive : ¬ event.Expires key (saturatingAdd completedAtMs setup.ttlMs))
    (hmove : point.Moves setup event (some reply) next) :
    next.states key = some (.completed fingerprint outcome completedAtMs) := by
  cases hmove with
  | returns io call =>
      unfold Point.after
      split
      next => exact hstate
      next storeCall hplan =>
        unfold Point.states
        rw [Ledger.indexOf_call]
        exact completedRecord_kept hstate hlive hplan _ hstate

/-- Once it is on disk, the record stays through crashes too. -/
theorem moves_keeps_durable
    (halways : point.ledger.Always (completedRecord key fingerprint outcome completedAtMs))
    (hlive : ¬ event.Expires key (saturatingAdd completedAtMs setup.ttlMs))
    (hmove : point.Moves setup event answer next) :
    next.ledger.Always (completedRecord key fingerprint outcome completedAtMs) := by
  have hstate : point.states key = some (.completed fingerprint outcome completedAtMs) :=
    halways.now
  cases hmove with
  | returns io call =>
      unfold Point.after
      split
      next => exact halways
      next storeCall hplan =>
        exact halways.call (completedRecord_kept hstate hlive hplan) setup.syncEach
  | dies hplan hio hsurvives =>
      exact Ledger.Always.settled
        (halways.survives (completedRecord_kept hstate hlive hplan) hsurvives)
  | crashes => exact Ledger.Always.settled halways.durable

/-- A flush or prune that returns puts the record on disk. -/
theorem moves_settles {reply : Answer} (hsyncs : event.Syncs)
    (hstate : point.states key = some (.completed fingerprint outcome completedAtMs))
    (hlive : ¬ event.Expires key (saturatingAdd completedAtMs setup.ttlMs))
    (hmove : point.Moves setup event (some reply) next) :
    next.ledger.Always (completedRecord key fingerprint outcome completedAtMs) := by
  have hnext := moves_keeps_volatile hstate hlive hmove
  cases hmove with
  | returns io call =>
      cases call with
      | begin begun other nowMs => exact hsyncs.elim
      | complete token other nowMs => exact hsyncs.elim
      | flush => exact Ledger.Always.of_buffered_nil rfl hnext
      | pruneExpired iteration nowMs => exact Ledger.Always.of_buffered_nil rfl hnext

/-- Along live events, a completed record that gets synced ends up on disk for good. -/
theorem path_keeps {last : Point} {events : List Event} {answers : List (Option Answer)}
    (hpath : Path (Point.Moves setup) point events answers last)
    (hlive : ∀ event ∈ events, ¬ event.Expires key (saturatingAdd completedAtMs setup.ttlMs))
    (hstate : point.states key = some (.completed fingerprint outcome completedAtMs))
    (hstrict : setup.syncEach = true → point.ledger.buffered = [])
    (hsynced : Synced setup.syncEach events answers) :
    last.states key = some (.completed fingerprint outcome completedAtMs) := by
  have hdurable : ∀ {start events answers},
      Path (Point.Moves setup) start events answers last →
      (∀ event ∈ events, ¬ event.Expires key (saturatingAdd completedAtMs setup.ttlMs)) →
      start.ledger.Always (completedRecord key fingerprint outcome completedAtMs) →
      last.states key = some (.completed fingerprint outcome completedAtMs) := by
    intro start events answers hpath hlive hstart
    have hlast := hpath.invariant _ (fun event hevent _ _ _ _ hpoint hmove =>
      moves_keeps_durable hpoint (hlive event hevent) hmove) hstart
    exact hlast.now
  rcases hsynced with hsync | ⟨before, sync, rest, rfl, hsyncs, hreturned⟩
  · exact hdurable hpath hlive (.of_buffered_nil (hstrict hsync) hstate)
  · obtain ⟨beforeAnswers, syncAnswers, middle, rfl, hbefore, hsync⟩ := hpath.split
    cases hsync with
    | @cons _ next _ _ _ answer restAnswers hfirst hrest =>
        have htake : (beforeAnswers ++ answer :: restAnswers).take (before.length + 1) =
            beforeAnswers ++ [answer] := by
          rw [← hbefore.length_eq]
          simp [List.take_append]
        rw [htake, List.mem_append, not_or, List.mem_singleton] at hreturned
        obtain ⟨hbeforeReturned, hsyncReturned⟩ := hreturned
        -- until the sync returns, the record may only be in memory
        have hmiddle : middle.states key =
            some (.completed fingerprint outcome completedAtMs) := by
          refine hbefore.invariant
            (fun middle => middle.states key = some (.completed fingerprint outcome completedAtMs))
            (fun event hevent other hother start next hstart hmove => ?_) hstate
          cases other with
          | none => exact absurd hother hbeforeReturned
          | some reply => exact moves_keeps_volatile hstart (hlive event (by simp [hevent])) hmove
        cases answer with
        | none => exact absurd rfl hsyncReturned
        | some reply =>
            refine hdurable hrest (fun event hevent => hlive event (by simp [hevent])) ?_
            exact moves_settles hsyncs hmiddle (hlive sync (by simp)) hfirst

end Invariant

/-- From a completion that returned until a begin of the key or a prune after
its time to live, through any calls and crashes, and once the completion is on
disk: a begin of the key is answered with the stored outcome, or with a
mismatch, and a completion of the key is refused. Neither changes the node. -/
theorem completed_outcome_persists (setup : Setup) (before after : List Event) (io : Io)
    (token : RunToken) (outcome : CachedOutcome) (completedAtMs : UInt64)
    (hfits : ∀ event ∈ before ++ .call io (.complete token outcome completedAtMs) :: after,
      event.Fits)
    (hlive : ∀ event ∈ after,
      ¬ event.Expires token.key (saturatingAdd completedAtMs setup.ttlMs)) :
    ∃ answers held, Node.run (Node.fresh setup.syncEach setup.leaseMs setup.ttlMs) before =
        .ok (answers, held) ∧
      ∀ completed, Node.step held (.call io (.complete token outcome completedAtMs)) =
          .ok (some (.completed (.ok ())), completed) →
        ∃ fingerprint afterAnswers last,
          Store.get completed.store token.key =
            some (.completed fingerprint outcome completedAtMs) ∧
          Node.run completed after = .ok (afterAnswers, last) ∧
          (Synced setup.syncEach after afterAnswers →
            (∀ io other nowMs, nowMs < saturatingAdd completedAtMs setup.ttlMs →
              Node.step last (.call io (.begin token.key other nowMs)) =
                .ok (some (.begun (if other = fingerprint then .replay outcome else .mismatch)),
                  last)) ∧
            (∀ io late other nowMs, late.key = token.key → ∃ refusal,
              Node.step last (.call io (.complete late other nowMs)) =
                .ok (some (.completed (.error refusal)), last))) := by
  obtain ⟨answers, held, point, hrun, -, hheld⟩ :=
    Node.run_refines (Node.fresh_represents setup) (fun event hevent =>
      hfits event (List.mem_append_left _ hevent))
  refine ⟨answers, held, hrun, fun completed hstep => ?_⟩
  obtain ⟨answer, next, pointNext, hstepNext, hmove, hnext⟩ :=
    Node.step_refines hheld (hfits (.call io (.complete token outcome completedAtMs)) (by simp))
  obtain ⟨rfl, rfl⟩ : some (.completed (.ok ())) = answer ∧ completed = next := by
    simpa [hstep] using hstepNext
  obtain ⟨hanswer, rfl⟩ := hmove.returned
  obtain ⟨fingerprint, leaseExpiresAtMs, hholder⟩ := EngineCall.plan_complete_ok hanswer.symm
  have hstore : (point.after setup (.complete token outcome completedAtMs)).ledger =
      point.ledger.call setup.syncEach
        (.put token.key (.completed fingerprint outcome completedAtMs)) := by
    rw [Point.after, Point.plan, EngineCall.plan_complete_holder hholder]
  have hstate : (point.after setup (.complete token outcome completedAtMs)).states token.key =
      some (.completed fingerprint outcome completedAtMs) := by
    rw [Point.states, hstore, Ledger.indexOf_call, Ledger.getElem?_indexAfter]
    exact if_pos rfl
  have hafterFits : ∀ event ∈ after, event.Fits := fun event hevent =>
    hfits event (by simp [hevent])
  obtain ⟨afterAnswers, last, pointLast, hafter, hpath, hlast⟩ :=
    Node.run_refines hnext hafterFits
  refine ⟨fingerprint, afterAnswers, last, (congrFun hnext.states token.key).trans hstate, hafter,
    fun hsynced => ?_⟩
  have hend := path_keeps hpath hlive hstate
    (fun hsync => by rw [hstore, hsync]; rfl) hsynced
  refine ⟨fun io other nowMs hnow => ?_, fun io late other nowMs hkey => ?_⟩
  · exact Node.step_reads hlast (EngineCall.plan_begin_completed hend other hnow) io
  · rw [← hkey] at hend
    exact ⟨_, Node.step_reads hlast (EngineCall.plan_complete_completed hend other nowMs) io⟩

/-- A charge is completed under group commit and flushed, and the process dies:
the retry is answered with the outcome. -/
theorem completed_outcome_persists_charge :
    ∃ held completed last,
      Node.run (Node.fresh false 30000 86400000) [.call .done (.begin ⟨"charge"⟩ ⟨genesis⟩ 0)] =
        .ok ([some (.begun (.run ⟨⟨"charge"⟩, ⟨1⟩⟩))], held) ∧
      Node.step held (.call .done (.complete ⟨⟨"charge"⟩, ⟨1⟩⟩ ⟨200, ∅, [111, 107]⟩ 40)) =
        .ok (some (.completed (.ok ())), completed) ∧
      Node.run completed [.call .done .flush, .crash] = .ok ([some .done, none], last) ∧
      Node.step last (.call .done (.begin ⟨"charge"⟩ ⟨genesis⟩ 90)) =
        .ok (some (.begun (.replay ⟨200, ∅, [111, 107]⟩)), last) := by
  obtain ⟨answers, held, hrun, hpersists⟩ := completed_outcome_persists ⟨false, 30000, 86400000⟩
    [.call .done (.begin ⟨"charge"⟩ ⟨genesis⟩ 0)] [.call .done .flush, .crash] .done
    ⟨⟨"charge"⟩, ⟨1⟩⟩ ⟨200, ∅, [111, 107]⟩ 40 (by decide) (by decide)
  have hbegin : ∀ event ∈ [Event.call .done (.begin ⟨"charge"⟩ ⟨genesis⟩ 0)],
      event.Fits ∧ event.Quiet := by decide
  have hcomplete : Event.Fits (.call .done (.complete ⟨⟨"charge"⟩, ⟨1⟩⟩ ⟨200, ∅, [111, 107]⟩ 40)) ∧
      Event.Quiet (.call .done (.complete ⟨⟨"charge"⟩, ⟨1⟩⟩ ⟨200, ∅, [111, 107]⟩ 40)) := by decide
  have hflush : ∀ event ∈ [Event.call .done .flush, .crash], event.Fits ∧ event.Quiet := by decide
  obtain ⟨_, begun, _, hbegun, hpoint, hheld⟩ := Node.run_quiet
    (Node.fresh_represents ⟨false, 30000, 86400000⟩) hbegin
  cases hpoint
  cases hrun.symm.trans hbegun
  obtain ⟨_, completed, _, hstep, hpoint, hcompleted⟩ := Node.step_quiet hheld hcomplete
  cases hpoint
  obtain ⟨fingerprint, afterAnswers, last, hstored, hafter, hsafe⟩ := hpersists completed hstep
  obtain ⟨_, flushed, _, hflushed, hpoint, -⟩ := Node.run_quiet hcompleted hflush
  cases hpoint
  cases hafter.symm.trans hflushed
  have hfingerprint : some (KeyState.completed ⟨genesis⟩ ⟨200, ∅, [111, 107]⟩ 40) =
      some (.completed fingerprint ⟨200, ∅, [111, 107]⟩ 40) := by
    rw [← hstored, hcompleted.states]
    decide
  cases hfingerprint
  have hsynced := hsafe (Or.inr ⟨[], _, _, rfl, trivial, by decide⟩)
  exact ⟨held, completed, last, hbegun, hstep, hflushed, hsynced.1 .done ⟨genesis⟩ 90 (by decide)⟩

end Onced.Wal
