import ControlTower.Tuning.Evaluation

/-! What an evaluation may do to a probe round.

A row is in a round while its phase is probing and no status is targeted: with a
command it waits for the result, without one the result is in and is folded next.
`Allowed` says which requests an evaluation makes, by how far it has got with the
round it read. It keeps the round as it is; or it closes it, at most once after a
decision; or, with no round left, it launches a new one and returns.

`evaluate_allowed`: that is all an evaluation does. -/
namespace ControlTower.Tuning
open Go ContinuousState Tick

def Row.InRound (r : Row Circuit) : Prop := r.rest.phase = .probing ∧ r.circuitStatusTarget = 0

def ContinuousState.InRound (s : TickState) : Prop :=
  s.rest.phase = .probing ∧ s.circuitStatusTarget = 0

inductive Stage where
  /-- The round that was read has not been touched. -/
  | reading
  /-- It was folded, which has not been put yet. -/
  | folded
  /-- There is no round. -/
  | closed
  /-- A command was created for a new round. -/
  | opening (id : String)
  | launched
deriving DecidableEq

/-- The state still has the round that was read. -/
structure Same (u v : TickState) : Prop where
  revision : v.controlRevision = u.controlRevision
  command : v.probeCommandID = u.probeCommandID
  attempts : v.probeAttempts = u.probeAttempts
  successes : v.probeSuccesses = u.probeSuccesses
  duration : v.probeDurationSum = u.probeDurationSum
  slow : v.probeSlowStreak = u.probeSlowStreak
  round : v.InRound

/-- The state has no round; if one was awaited, it is given up. -/
structure Closing (u v : TickState) : Prop where
  revision : v.controlRevision = u.controlRevision
  command : v.probeCommandID = none
  ended : ¬v.InRound
  abandons : u.probeCommandID ≠ none → v.rest.phase ≠ .probing

inductive Allowed (u : TickState) : Stage → Eval → Prop
  | done {st} : st = .reading ∨ st = .closed ∨ st = .launched → Allowed u st .done
  | keep {v next} : Same u v → (∀ committed, Allowed u .reading (next committed)) →
      Allowed u .reading (.put v next)
  | close {st v next} : st = .reading ∨ st = .folded ∨ st = .closed → Closing u v →
      (∀ committed, Allowed u .closed (next committed)) → Allowed u st (.put v next)
  | launch {id v next} : v.controlRevision = u.controlRevision → v.probeCommandID = some id →
      v.InRound → (∀ committed, Allowed u .launched (next committed)) →
      Allowed u (.opening id) (.put v next)
  | change {c next} : (∀ target, c.status = some target → target ≠ 0) →
      (∀ created, Allowed u .closed (next created)) → Allowed u .closed (.change c next)
  | probe {st next} : st = .folded ∨ st = .closed → u.probeCommandID = none →
      Allowed u st (next none) → (∀ id, Allowed u (.opening id) (next (some id))) →
      Allowed u st (.probe next)
  | status {st id next} : (∀ answer, Allowed u st (next answer)) → Allowed u st (.status id next)
  | completedProbeCount {st next} : (∀ answer, Allowed u st (next answer)) →
      Allowed u st (.completedProbeCount next)
  | fold {d next} : u.InRound → u.probeCommandID = none → Allowed u .folded next →
      Allowed u .reading (.fold d next)

/-! ### What the helpers keep -/

/-- The columns of the round are the same in both states. -/
structure Alike (s s' : TickState) : Prop where
  revision : s'.controlRevision = s.controlRevision
  command : s'.probeCommandID = s.probeCommandID
  attempts : s'.probeAttempts = s.probeAttempts
  successes : s'.probeSuccesses = s.probeSuccesses
  duration : s'.probeDurationSum = s.probeDurationSum
  slow : s'.probeSlowStreak = s.probeSlowStreak
  phase : s'.rest.phase = s.rest.phase
  target : s'.circuitStatusTarget = s.circuitStatusTarget

variable {u s s' : TickState} {t : Tick}

theorem Alike.inRound (h : Alike s s') : s'.InRound ↔ s.InRound := by
  unfold ContinuousState.InRound
  rw [h.phase, h.target]

theorem Alike.same (h : Alike s s') (hs : Same u s) : Same u s' :=
  ⟨h.revision.trans hs.revision, h.command.trans hs.command, h.attempts.trans hs.attempts,
    h.successes.trans hs.successes, h.duration.trans hs.duration, h.slow.trans hs.slow,
    h.inRound.mpr hs.round⟩

theorem Alike.closing (h : Alike s s') (hs : Closing u s) : Closing u s' := by
  refine ⟨h.revision.trans hs.revision, h.command.trans hs.command, ?_, ?_⟩
  · rw [h.inRound]
    exact hs.ended
  · rw [h.phase]
    exact hs.abandons

/-- A state that is not probing has no round. -/
theorem Closing.of_phase (hrev : s.controlRevision = u.controlRevision) (hcmd : s.probeCommandID = none)
    (hphase : s.rest.phase ≠ .probing) : Closing u s :=
  ⟨hrev, hcmd, fun h => hphase h.1, fun _ => hphase⟩

theorem alike_noteWriteSuccess (s : TickState) : Alike s s.noteWriteSuccess :=
  ⟨rfl, rfl, rfl, rfl, rfl, rfl, rfl, rfl⟩

theorem alike_noteWriteFailure (t : Tick) (s : TickState) (e : WriteErr) :
    Alike s (t.noteWriteFailure s e) := by
  cases e <;> exact ⟨rfl, rfl, rfl, rfl, rfl, rfl, rfl, rfl⟩

theorem alike_confirmCapacityWrite (t : Tick) (s : TickState) (weight : Int) (appliedAt : Time) :
    Alike s (t.confirmCapacityWrite s weight appliedAt) :=
  ⟨rfl, rfl, rfl, rfl, rfl, rfl, rfl, rfl⟩

theorem Alike.trans {s₁ s₂ s₃ : TickState} (h : Alike s₁ s₂) (h' : Alike s₂ s₃) : Alike s₁ s₃ :=
  ⟨h'.revision.trans h.revision, h'.command.trans h.command, h'.attempts.trans h.attempts,
    h'.successes.trans h.successes, h'.duration.trans h.duration, h'.slow.trans h.slow,
    h'.phase.trans h.phase, h'.target.trans h.target⟩

theorem closing_resetFailedCircuitEnable (hs : Closing u s) (silentMinutes : Int) :
    Closing u (t.resetFailedCircuitEnable silentMinutes s) :=
  .of_phase hs.revision hs.command (by simp [resetFailedCircuitEnable, resetCounts])

/-- Taking back a write that was not applied does not touch a round. -/
theorem resetUnapplied_spec (t : Tick) (s : TickState) :
    Alike s (t.resetUnappliedCapacityTransition s) ∨ (s.rest.phase ≠ .probing ∧
      (t.resetUnappliedCapacityTransition s).rest.phase ≠ .probing ∧
      (t.resetUnappliedCapacityTransition s).controlRevision = s.controlRevision ∧
      (t.resetUnappliedCapacityTransition s).probeCommandID = s.probeCommandID) := by
  unfold resetUnappliedCapacityTransition
  split
  · rename_i hphase
    right
    simp [hphase, resetFailedCircuitEnable, resetCounts]
  split
  · rename_i hphase
    right
    simp [hphase.1]
  · exact .inl ⟨rfl, rfl, rfl, rfl, rfl, rfl, rfl, rfl⟩

/-- Nor does settling the pending command. -/
theorem settled_spec (t : Tick) (s : TickState) (answer : Option (CommandStatus × Option Time)) :
    Alike s (t.settled s answer) ∨ (s.rest.phase ≠ .probing ∧ (t.settled s answer).rest.phase ≠ .probing ∧
      (t.settled s answer).controlRevision = s.controlRevision ∧
      (t.settled s answer).probeCommandID = s.probeCommandID) := by
  have hcleared : Alike s {s with rest := {s.rest with
      capacity := {s.rest.capacity with pendingCommandID := ""}}} :=
    ⟨rfl, rfl, rfl, rfl, rfl, rfl, rfl, rfl⟩
  match answer with
  | none | some (.pending, _) | some (.delivered, _) => exact .inl ⟨rfl, rfl, rfl, rfl, rfl, rfl, rfl, rfl⟩
  | some (.succeeded, _) =>
    exact .inl ((alike_confirmCapacityWrite t s _ _).trans (alike_noteWriteSuccess _))
  | some (.superseded, _) => exact (resetUnapplied_spec t _).imp_left hcleared.trans
  | some (.other _, _) =>
    have hfail := alike_noteWriteFailure t (t.resetUnappliedCapacityTransition
      {s with rest := {s.rest with capacity := {s.rest.capacity with pendingCommandID := ""}}}) .failed
    rcases resetUnapplied_spec t {s with rest := {s.rest with
      capacity := {s.rest.capacity with pendingCommandID := ""}}} with h | ⟨h₁, h₂, h₃, h₄⟩
    · exact .inl ((hcleared.trans h).trans hfail)
    · refine .inr ⟨h₁, ?_, hfail.revision.trans h₃, hfail.command.trans h₄⟩
      show (t.noteWriteFailure _ _).rest.phase ≠ _
      rw [hfail.phase]
      exact h₂

theorem closing_settled (hs : Closing u s) (answer : Option (CommandStatus × Option Time)) :
    Closing u (t.settled s answer) := by
  rcases settled_spec t s answer with h | ⟨-, hphase, hrev, hcmd⟩
  · exact h.closing hs
  · exact .of_phase (hrev.trans hs.revision) (hcmd.trans hs.command) hphase

theorem closing_statusApplied (hs : Closing u s) (target : Int) : Closing u (t.statusApplied s target) := by
  unfold statusApplied
  split
  · exact .of_phase hs.revision hs.command (by simp)
  · exact .of_phase hs.revision hs.command (by simp)

theorem closing_statusFailed (hs : Closing u s) (target : Int) (e : WriteErr) :
    Closing u (t.statusFailed s target e) := by
  have hfail := (alike_noteWriteFailure t s e).closing hs
  unfold statusFailed
  split
  · exact closing_resetFailedCircuitEnable hfail _
  · exact hfail

/-- An exhausted operation ends without a round, whether or not there was one. -/
theorem closing_finishFailedWrite (hs : Same u s ∨ Closing u s) : Closing u (t.finishFailedWrite s) := by
  have hrev : s.controlRevision = u.controlRevision := hs.elim Same.revision Closing.revision
  unfold finishFailedWrite
  split
  · rename_i hlatched
    -- A state with a target has no round.
    have hclosing : Closing u s := by
      refine hs.resolve_left fun h => ?_
      have htarget := h.round.2
      rw [hlatched.2] at htarget
      cases htarget
    split
    · exact hclosing
    · exact .of_phase hrev hclosing.command (by simp [noteWriteSuccess])
  · simp only
    split
    · exact .of_phase hrev rfl (by
        simp [noteWriteSuccess, resetFailedCircuitEnable, resetCounts])
    · exact .of_phase hrev rfl (by simp [noteWriteSuccess])

/-! ### The evaluation, from its last requests back to its first -/

variable {st : Stage}

theorem persist_closing (hst : st = .reading ∨ st = .folded ∨ st = .closed)
    (hs : Closing u s) : Allowed u st (t.persist s) :=
  .close hst ⟨hs.revision, hs.command, hs.ended, hs.abandons⟩ fun _ => .done (.inr (.inl rfl))

theorem persist_same (hs : Same u s) : Allowed u .reading (t.persist s) :=
  .keep ⟨hs.1, hs.2, hs.3, hs.4, hs.5, hs.6, hs.7⟩ fun _ => .done (.inl rfl)

variable {next : TickState → Eval}

theorem settleCapacityWrite_closing (hs : Closing u s)
    (hnext : ∀ s', Closing u s' → Allowed u .closed (next s')) :
    Allowed u .closed (t.settleCapacityWrite s next) := by
  unfold settleCapacityWrite
  split
  · exact hnext s hs
  · exact .status fun answer => hnext _ (closing_settled hs answer)

/-- A tracked write puts the state first; if the attempt is not due, nothing happens. -/
theorem createTracked_closing {weight : Int} {opened : Bool}
    {next : Option WriteErr → TickState → Eval} (hst : st = .folded ∨ st = .closed) (hs : Closing u s)
    (hnext : ∀ st' failure s', st' = .folded ∨ st' = .closed → Closing u s' →
      (failure ≠ none → s'.circuitStatusTarget = s.circuitStatusTarget) → Allowed u st' (next failure s')) :
    Allowed u st (t.createTrackedWeightChange s weight opened next) := by
  unfold createTrackedWeightChange
  split
  · exact hnext st _ s hst hs fun _ => rfl
  · have hput : Closing u {s with
        updatedAt := t.now
        rest := {s.rest with capacity := {s.rest.capacity with initialized := true}}} :=
      ⟨hs.1, hs.2, hs.3, hs.4⟩
    refine .close (hst.elim (.inr ∘ .inl) (.inr ∘ .inr)) hput fun committed => ?_
    simp only
    split
    · exact hnext _ _ _ (.inr rfl) hput fun _ => rfl
    · refine .change (fun target h => by cases h) fun created => ?_
      cases created with
      | refused e => exact hnext _ _ _ (.inr rfl) hput fun _ => rfl
      | made id clock queued =>
        simp only
        have hpending : Closing u {s with
            updatedAt := t.now
            rest := {s.rest with capacity := ⟨true, id, weight⟩}} := ⟨hs.1, hs.2, hs.3, hs.4⟩
        split
        · refine hnext _ _ _ (.inr rfl) ?_ fun h => absurd rfl h
          exact ((alike_confirmCapacityWrite t _ _ _).trans (alike_noteWriteSuccess _)).closing hpending
        · exact settleCapacityWrite_closing hpending fun s' hs' =>
            hnext _ _ s' (.inr rfl) hs' fun h => absurd rfl h

variable {target : Int}

theorem awaitCircuitStatus_closing (hs : Closing u s)
    (hnext : ∀ s', Closing u s' → Allowed u .closed (next s')) :
    Allowed u .closed (t.awaitCircuitStatus s target next) := by
  refine .status fun answer => ?_
  have hcleared : Closing u {s with rest := {s.rest with circuitStatusCommandID := ""}} :=
    ⟨hs.1, hs.2, hs.3, hs.4⟩
  match answer with
  | none | some (.pending, _) | some (.delivered, _) => exact hnext s hs
  | some (.succeeded, _) => exact hnext _ (closing_statusApplied hs target)
  | some (.superseded, _) | some (.other _, _) => exact hnext _ (closing_statusFailed hcleared target _)

theorem enqueueCircuitStatus_closing (htarget : target ≠ 0)
    (hs : Closing u s) (hnext : ∀ s', Closing u s' → Allowed u .closed (next s')) :
    Allowed u .closed (t.enqueueCircuitStatus s target next) := by
  unfold enqueueCircuitStatus
  split
  · exact awaitCircuitStatus_closing hs hnext
  split
  · exact hnext s hs
  split
  · exact hnext s hs
  refine .change (fun target' h => ?_) fun created => ?_
  · cases h
    exact htarget
  cases created with
  | refused e => exact hnext _ (closing_statusFailed hs target e)
  | made id clock queued =>
    simp only
    split
    · exact hnext _ (closing_statusApplied hs target)
    · exact awaitCircuitStatus_closing ⟨hs.1, hs.2, hs.3, hs.4⟩ hnext

theorem advanceCircuitStatus_closing (htarget : s.circuitStatusTarget ≠ 0)
    (hs : Closing u s) (hnext : ∀ s', Closing u s' → Allowed u .closed (next s')) :
    Allowed u .closed (t.advanceCircuitStatus s next) := by
  unfold advanceCircuitStatus
  split
  · have hput : Closing u {s with circuitStatusTarget := 2} := by
      refine ⟨hs.revision, hs.command, fun h => ?_, hs.abandons⟩
      cases h.2
    refine .close (.inr (.inr rfl)) hput fun committed => ?_
    split
    · exact enqueueCircuitStatus_closing (by decide) hput hnext
    · exact hnext _ hput
  · exact enqueueCircuitStatus_closing htarget hs hnext

theorem Closing.not_probing (hs : Closing u s) (htarget : s.circuitStatusTarget = 0) :
    s.rest.phase ≠ .probing := fun h => hs.ended ⟨h, htarget⟩

/-- A serving channel has no round to begin with. -/
theorem evaluateServing_closing (hst : st = .folded ∨ st = .closed) (hs : Closing u s) :
    Allowed u st (t.evaluateServing s) := by
  unfold evaluateServing
  split
  · have hopened : Closing u (({s with rest := {s.rest with
        phase := .circuit
        nextProbeAt := some (t.now + Time.minutes t.rules.silentMinutes)}} : TickState).resetCounts) :=
      .of_phase hs.revision hs.command (by simp [resetCounts])
    simp only
    split
    · refine createTracked_closing hst hopened fun st' failure s' hst' hs' _ => ?_
      cases failure with
      | none => exact persist_closing (.inr hst') hs'
      | some e =>
        refine persist_closing (.inr hst') ((alike_noteWriteFailure t _ e).closing ?_)
        exact .of_phase hs'.revision hs'.command (by simp)
    · exact persist_closing (.inr hst) hopened
  split
  · exact persist_closing (.inr hst) hs
  · have hnoted : Closing u (t.endIdleRetry s) := by
      unfold endIdleRetry
      split
      · exact (alike_noteWriteSuccess s).closing hs
      · exact hs
    simp only
    split
    · refine createTracked_closing hst hnoted fun st' failure s' hst' hs' _ => ?_
      cases failure with
      | none => exact persist_closing (.inr hst') hs'
      | some e => exact persist_closing (.inr hst') ((alike_noteWriteFailure t _ e).closing hs')
    · exact persist_closing (.inr hst) hnoted

/-- Without a round, the circuit may launch one. -/
theorem evaluatePhase_closing (hst : st = .folded ∨ st = .closed)
    (hu : u.probeCommandID = none) (htarget : s.circuitStatusTarget = 0) (hs : Closing u s) :
    Allowed u st (t.evaluatePhase s) := by
  have hphase := hs.not_probing htarget
  unfold evaluatePhase
  split
  · split
    · refine .probe hst hu ?_ fun id => ?_
      · exact persist_closing (.inr hst) (.of_phase hs.revision hs.command hphase)
      · exact .launch hs.revision rfl ⟨rfl, htarget⟩ fun _ => .done (.inr (.inr rfl))
    · exact persist_closing (.inr hst) hs
  · rename_i hprobing
    exact absurd hprobing hphase
  · split
    · exact persist_closing (.inr hst) (.of_phase hs.revision hs.command hphase)
    · exact evaluateServing_closing hst (.of_phase hs.revision hs.command (by simp))
  · exact evaluateServing_closing hst hs
  · exact evaluateServing_closing hst hs

theorem evaluatePassive_closing (hst : st = .folded ∨ st = .closed)
    (hu : u.probeCommandID = none) (htarget : s.circuitStatusTarget = 0) (hs : Closing u s) :
    Allowed u st (t.evaluatePassive s) := by
  unfold evaluatePassive
  split
  · split
    · exact persist_closing (.inr hst) (.of_phase hs.revision hs.command (by simp))
    · exact evaluatePhase_closing hst hu htarget ⟨hs.1, hs.2, hs.3, hs.4⟩
  · exact evaluatePhase_closing hst hu htarget hs

/-- A round that is still awaited is left as it is, or given up. -/
theorem evaluatePassive_same (hs : Same u s) : Allowed u .reading (t.evaluatePassive s) := by
  have hphase := hs.round.1
  have hpassive : t.evaluatePassive s = t.evaluatePhase s := by
    unfold evaluatePassive
    rw [if_neg (by simp [hphase])]
  rw [hpassive]
  unfold evaluatePhase
  rw [hphase]
  simp only
  split
  · exact persist_closing (.inl rfl) (.of_phase hs.revision rfl (by simp))
  · exact persist_same hs

/-! ### Folding -/

theorem startCircuitStatus_allowed (hround : u.InRound) (hu : u.probeCommandID = none)
    (htarget : s.circuitStatusTarget ≠ 0) (hs : Closing u s) :
    Allowed u .reading (t.startCircuitStatus s target) := by
  refine .fold hround hu (.close (.inr (.inl rfl)) hs fun committed => ?_)
  split
  · exact advanceCircuitStatus_closing htarget hs fun s' hs' => persist_closing (.inr (.inr rfl)) hs'
  · exact persist_closing (.inr (.inr rfl)) hs

theorem foldRound_allowed {completeRound : Bool} (hround : u.InRound) (hu : u.probeCommandID = none)
    (hs : Same u s) : Allowed u .reading (t.foldRound s completeRound) := by
  have hcmd : s.probeCommandID = none := hs.command.trans hu
  -- Every decision leaves the phase or the target behind.
  have htargeted : ∀ (target : Int) (disabled : Bool), target ≠ 0 →
      Closing u {s with circuitDisabled := disabled, circuitStatusTarget := target} :=
    fun target disabled h => ⟨hs.revision, hcmd, fun hin => h hin.2, fun hne => absurd hu hne⟩
  have hphased : ∀ rest : Circuit, rest.phase ≠ .probing → Closing u {s with rest := rest} :=
    fun rest h => .of_phase hs.revision hcmd h
  unfold foldRound
  split
  · exact startCircuitStatus_allowed hround hu (by simp) (htargeted 2 true (by decide))
  split
  · split
    · exact persist_same hs
    split
    · exact startCircuitStatus_allowed hround hu (by simp) (htargeted 1 _ (by decide))
    · refine .fold hround hu ?_
      simp only
      split
      · refine createTracked_closing (.inl rfl) (hphased _ (by simp)) fun st' failure s' hst' hs' htarget => ?_
        cases failure with
        | none => exact persist_closing (.inr hst') ⟨hs'.1, hs'.2, hs'.3, hs'.4⟩
        | some e =>
          have hback : Closing u (t.backToCircuit {s' with rest := {s'.rest with softStartPending := false}}) :=
            .of_phase hs'.revision hs'.command (by simp [backToCircuit])
          have hfail := alike_noteWriteFailure t
            (t.backToCircuit {s' with rest := {s'.rest with softStartPending := false}}) e
          have hclosing := hfail.closing hback
          refine evaluatePassive_closing hst' hu ?_ ⟨hclosing.1, hclosing.2, hclosing.3, hclosing.4⟩
          exact hfail.target.trans ((htarget (by simp)).trans hs.round.2)
      · exact persist_closing (.inr (.inl rfl)) (.of_phase hs.revision hcmd (by
          simp [resetCounts]))
  · refine .fold hround hu (evaluatePassive_closing (.inl rfl) hu hs.round.2 ?_)
    exact .of_phase hs.revision hcmd (by simp [resetCounts, backToCircuit])

/-! ### The whole evaluation -/

/-- Where the evaluation stands before it has looked at the round. -/
def Before (u : TickState) (st : Stage) (s : TickState) : Prop :=
  (st = .reading ∧ u.InRound ∧ Same u s) ∨ (st = .closed ∧ u.probeCommandID = none ∧ Closing u s)

theorem Before.alike (h : Before u st s) (ha : Alike s s') : Before u st s' := by
  rcases h with ⟨hst, hround, hs⟩ | ⟨hst, hu, hs⟩
  · exact .inl ⟨hst, hround, ha.same hs⟩
  · exact .inr ⟨hst, hu, ha.closing hs⟩

theorem Before.put {next : Bool → Eval} (h : Before u st s)
    (hnext : ∀ committed, Allowed u st (next committed)) : Allowed u st (.put s next) := by
  rcases h with ⟨rfl, -, hs⟩ | ⟨rfl, -, hs⟩
  · exact .keep hs hnext
  · exact .close (.inr (.inr rfl)) hs hnext

theorem Before.done (h : Before u st s) : Allowed u st .done := by
  rcases h with ⟨rfl, -, -⟩ | ⟨rfl, -, -⟩
  · exact .done (.inl rfl)
  · exact .done (.inr (.inl rfl))

theorem Before.persist (h : Before u st s) : Allowed u st (t.persist s) :=
  Before.put (h.alike ⟨rfl, rfl, rfl, rfl, rfl, rfl, rfl, rfl⟩) fun _ => h.done

/-- Every stage before the round is looked at admits a put that leaves no round. -/
theorem Before.closes (h : Before u st s) : st = .reading ∨ st = .folded ∨ st = .closed := by
  rcases h with ⟨rfl, -, -⟩ | ⟨rfl, -, -⟩
  · exact .inl rfl
  · exact .inr (.inr rfl)

theorem Before.revision (h : Before u st s) : s.controlRevision = u.controlRevision := by
  rcases h with ⟨-, -, hs⟩ | ⟨-, -, hs⟩
  · exact hs.revision
  · exact hs.revision

theorem evaluateRound_allowed (htarget : s.circuitStatusTarget = 0) (h : Before u st s) :
    Allowed u st (t.evaluateRound s) := by
  unfold evaluateRound
  rcases h with ⟨rfl, hround, hs⟩ | ⟨rfl, hu, hs⟩
  · split
    · rename_i hfinished
      have hu : u.probeCommandID = none := hs.command.symm.trans hfinished.2
      split
      · refine .completedProbeCount fun answer => ?_
        cases answer with
        | none => exact .done (.inl rfl)
        | some expected => exact foldRound_allowed hround hu hs
      · exact foldRound_allowed hround hu hs
    · exact evaluatePassive_same hs
  · split
    · rename_i hfinished
      exact absurd hfinished.1 (hs.not_probing htarget)
    · exact evaluatePassive_closing (.inr rfl) hu htarget hs

theorem evaluateWeighted_allowed (h : Before u st s) : Allowed u st (t.evaluateWeighted s) := by
  unfold evaluateWeighted
  split
  · exact persist_closing h.closes (closing_finishFailedWrite (h.imp (·.2.2) (·.2.2)))
  split
  · exact h.done
  split
  · rename_i htarget
    -- A state with a target has no round.
    obtain ⟨rfl, -, hs⟩ : st = .closed ∧ u.probeCommandID = none ∧ Closing u s :=
      h.resolve_left fun hr => htarget hr.2.2.round.2
    split
    · split
      · exact persist_closing (.inr (.inr rfl)) (closing_resetFailedCircuitEnable hs _)
      · exact advanceCircuitStatus_closing htarget hs fun s' hs' => persist_closing (.inr (.inr rfl)) hs'
    · exact persist_closing (.inr (.inr rfl)) hs
  rename_i htarget
  have htarget : s.circuitStatusTarget = 0 := Decidable.not_not.mp htarget
  split
  · exact h.done
  split
  · exact h.persist
  split
  · rename_i hcircuit
    obtain ⟨rfl, hu, hs⟩ : st = .closed ∧ u.probeCommandID = none ∧ Closing u s := by
      refine h.resolve_left fun hr => ?_
      have hprobing := hr.2.2.round.1
      rw [hcircuit.1] at hprobing
      cases hprobing
    exact evaluateRound_allowed htarget (.inr ⟨rfl, hu, hs.1, hs.2, hs.3, hs.4⟩)
  · exact evaluateRound_allowed htarget h

theorem evaluateOwned_allowed (h : Before u st s) : Allowed u st (t.evaluateOwned s) := by
  have hunmixed : Before u st (unmixed s) := h.alike ⟨rfl, rfl, rfl, rfl, rfl, rfl, rfl, rfl⟩
  unfold evaluateOwned
  split
  · exact h.done
  split
  · refine Before.persist (h.alike ?_)
    exact ⟨rfl, rfl, rfl, rfl, rfl, rfl, rfl, rfl⟩
  split
  · refine persist_closing h.closes ?_
    have hnormal : Closing u {(unmixed s).resetCounts with
        probeCommandID := none
        rest := {s.rest with phase := .normal, nextProbeAt := none, softStartPending := false}} :=
      .of_phase h.revision rfl (by simp)
    unfold unweighted
    simp only
    split
    · exact (alike_noteWriteSuccess _).closing hnormal
    · exact hnormal
  · exact evaluateWeighted_allowed hunmixed

theorem evaluateCapacity_allowed (h : Before u st s) : Allowed u st (t.evaluateCapacity s) := by
  have hsettled : ∀ s', (s' = s ∨ ∃ answer, s' = t.settled s answer) → Before u st s' := by
    rintro s' (rfl | ⟨answer, rfl⟩)
    · exact h
    · rcases h with ⟨hst, hround, hs⟩ | ⟨hst, hu, hs⟩
      · refine .inl ⟨hst, hround, ?_⟩
        rcases settled_spec t s answer with ha | ⟨hphase, -⟩
        · exact ha.same hs
        · exact absurd hs.round.1 hphase
      · exact .inr ⟨hst, hu, closing_settled hs answer⟩
  have hnext : ∀ s', Before u st s' → Allowed u st (t.evaluateOwned {s' with rest := {s'.rest with
      capacity := {s'.rest.capacity with
        initialized := s'.rest.capacity.initialized || t.capacityConfigured}}}) :=
    fun s' hs' => evaluateOwned_allowed (hs'.alike ⟨rfl, rfl, rfl, rfl, rfl, rfl, rfl, rfl⟩)
  unfold evaluateCapacity
  split
  · unfold settleCapacityWrite
    split
    · exact hnext s (hsettled s (.inl rfl))
    · exact .status fun answer => hnext _ (hsettled _ (.inr ⟨answer, rfl⟩))
  · exact evaluateOwned_allowed h

/-- The stage in which an evaluation of this row starts. -/
def startStage (row : Option (Row Circuit)) : Stage :=
  if (readState row).rest.phase = .probing ∧ (readState row).circuitStatusTarget = 0 then .reading
  else .closed

/-- **An evaluation does to a round what it is allowed to**, whatever the tick finds
and whatever the store answers, if only a row in a round awaits a command. -/
theorem evaluate_allowed (t : Tick) (row : Option (Row Circuit))
    (hrow : (readState row).probeCommandID ≠ none → (readState row).InRound) :
    Allowed (readState row) (startStage row) (t.evaluate row) := by
  have hstart : Before (readState row) (startStage row) (readState row) := by
    unfold startStage
    split
    · rename_i hround
      exact .inl ⟨rfl, hround, rfl, rfl, rfl, rfl, rfl, rfl, hround⟩
    · rename_i hround
      have hnone : (readState row).probeCommandID = none :=
        Decidable.not_not.mp fun hne => hround (hrow hne)
      exact .inr ⟨rfl, hnone, rfl, hnone, hround, fun hne => absurd hnone hne⟩
  have htaken : Before (readState row) (startStage row) (t.takenUp (readState row)) := by
    have hphase : ∀ phase : CircuitPhase,
        (if phase = .blank then .normal else phase) = .probing ↔ phase = .probing := by
      intro phase
      cases phase <;> simp
    rcases hstart with ⟨hst, hround, hs⟩ | ⟨hst, hu, hs⟩
    · exact .inl ⟨hst, hround, rfl, rfl, rfl, rfl, rfl, rfl, (hphase _).mpr hround.1, hround.2⟩
    · refine .inr ⟨hst, hu, rfl, hu, fun hin => ?_, fun hne => absurd hu hne⟩
      exact hs.ended ⟨(hphase _).mp hin.1, hin.2⟩
  unfold evaluate
  simp only
  split
  · exact hstart.done
  split
  · exact hstart.done
  unfold evaluateTaken
  split
  · have hnoted : Before (readState row) (startStage row)
        {(t.takenUp (readState row)).noteWriteSuccess with updatedAt := t.now} :=
      htaken.alike ⟨rfl, rfl, rfl, rfl, rfl, rfl, rfl, rfl⟩
    exact hnoted.put fun _ => evaluateCapacity_allowed hnoted
  · exact evaluateCapacity_allowed htaken

end ControlTower.Tuning
