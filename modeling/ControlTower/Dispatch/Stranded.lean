import ControlTower.Dispatch.World

/-! No circuit is stranded.

Whatever jobs, operators, schedules and snapshots do to a channel, and wherever a job
is cut off, the stored state keeps a way out of its circuit: the time of the next
probe is set unless a status command is awaited, a closed circuit leaves no times
behind, and a latched fault has the channel disabled. -/
namespace ControlTower.Dispatch
open Go Tuning Data Option

/-- Where the circuit of a state stands. -/
structure Circuit where
  phase : CircuitPhase
  openedAt : Option Time
  nextProbeAt : Option Time
  latched : Bool
  disabled : Bool
  target : Int

def circuit (s : State) : Circuit :=
  ⟨s.rest.phase, s.rest.circuitOpenedAt, s.rest.nextProbeAt, s.rest.routineCircuitLatched,
    s.circuitDisabled, s.circuitStatusTarget⟩

/-- What every stored state keeps: a way on from an open circuit, and nothing left of a closed
one. The target is never the 3 of earlier versions. -/
structure Circuit.Sound (c : Circuit) : Prop where
  probed : c.target = 0 → c.phase = .circuit ∨ c.phase = .probing → c.nextProbeAt.isSome
  closed : c.phase = .normal ∨ c.phase = .blank → c.openedAt = none ∧ c.nextProbeAt = none
  latched : c.latched → c.disabled
  target : c.target = 0 ∨ c.target = 1 ∨ c.target = 2

/-- A state whose circuit is sound. -/
def Sound (s : State) : Prop := (circuit s).Sound

/-! ### What the helpers do to the circuit -/

section Helpers
variable {t : Setting} {s s' : State}

variable (h : Sound s)
include h

/-- What leaves the circuit alone keeps it sound. -/
theorem Sound.of_eq (heq : circuit s' = circuit s) : Sound s' := by
  unfold Sound
  rw [heq]
  exact h

/-- A circuit whose next probe is set. -/
theorem Sound.waiting (hopen : s'.rest.phase = .circuit ∨ s'.rest.phase = .probing)
    (hnext : s'.rest.nextProbeAt.isSome)
    (hlatched : s'.rest.routineCircuitLatched → s'.circuitDisabled)
    (htarget : s'.circuitStatusTarget = 0 ∨ s'.circuitStatusTarget = s.circuitStatusTarget) : Sound s' where
  probed _ _ := hnext
  closed hclosed := by
    rcases hopen with hphase | hphase <;> simp [circuit, hphase] at hclosed
  latched := hlatched
  target := htarget.elim .inl fun heq => by simpa [circuit, heq] using h.target

/-- A closed circuit. -/
theorem Sound.shut (hphase : s'.rest.phase = .normal)
    (hnone : s'.rest.circuitOpenedAt = none ∧ s'.rest.nextProbeAt = none)
    (hlatched : s'.rest.routineCircuitLatched → s'.circuitDisabled)
    (htarget : s'.circuitStatusTarget = 0 ∨ s'.circuitStatusTarget = s.circuitStatusTarget) : Sound s' where
  probed _ hopen := by simp [circuit, hphase] at hopen
  closed _ := hnone
  latched := hlatched
  target := htarget.elim .inl fun heq => by simpa [circuit, heq] using h.target

/-- A channel that starts softly. -/
theorem Sound.soft (hphase : s'.rest.phase = .softStart)
    (hlatched : s'.rest.routineCircuitLatched → s'.circuitDisabled)
    (htarget : s'.circuitStatusTarget = 0 ∨ s'.circuitStatusTarget = s.circuitStatusTarget) : Sound s' where
  probed _ hopen := by simp [circuit, hphase] at hopen
  closed hclosed := by simp [circuit, hphase] at hclosed
  latched := hlatched
  target := htarget.elim .inl fun heq => by simpa [circuit, heq] using h.target

omit h in
@[simp] theorem circuit_noteWriteFailure (e : WriteErr) : circuit (t.noteWriteFailure s e) = circuit s := by
  cases e <;> rfl

/-- The probes begin anew when the channel could not be enabled. -/
theorem Sound.resetFailedCircuitEnable (silentMinutes : Int) :
    Sound (t.resetFailedCircuitEnable silentMinutes s) :=
  h.waiting (.inl rfl) rfl h.latched (.inl rfl)

/-- An opening that could not be written is taken back. -/
theorem Sound.unopened : Sound (Setting.unopened s) :=
  h.shut rfl ⟨rfl, rfl⟩ h.latched (.inr rfl)

theorem Sound.opened : Sound (t.opened s) :=
  h.waiting (.inl rfl) rfl h.latched (.inr rfl)

/-- A confirmed zero write moves the times of its circuit and no others. -/
theorem Sound.confirmed (silentMinutes weight : Int) (appliedAt : Time) :
    Sound (confirmCapacityWrite silentMinutes s weight appliedAt) := by
  by_cases hopened : s.rest.phase = .circuit ∧ weight = 0
  · exact h.waiting (.inl hopened.1) (by simp [confirmCapacityWrite, hopened]) h.latched (.inr rfl)
  · exact h.of_eq (by simp [circuit, confirmCapacityWrite, hopened])

/-- Whatever became of the command, the circuit stays sound. -/
theorem Sound.settled (answer : Option (CommandStatus × Option Time)) : Sound (t.settled s answer) := by
  have hforgot : Sound (t.resetUnappliedCapacityTransition (forgetWrite s)) := by
    have hforget : Sound (forgetWrite s) := h.of_eq rfl
    unfold Setting.resetUnappliedCapacityTransition
    split_ifs
    · exact hforget.resetFailedCircuitEnable _
    · exact hforget.unopened
    · exact hforget
  rcases answer with _ | ⟨_ | _ | _ | _ | _, completedAt⟩
  · exact h
  · exact h
  · exact h
  · exact (h.confirmed t.params.silentMinutes s.rest.capacity.pendingWeight (completedAt.getD t.now)).of_eq rfl
  · exact hforgot
  · exact hforgot.of_eq (circuit_noteWriteFailure (t := t) .failed)

/-- An applied status ends the wait for it. -/
theorem Sound.statusApplied (target : Int) : Sound (t.statusApplied s target) := by
  unfold Setting.statusApplied
  split_ifs
  · exact h.waiting (.inl rfl) rfl h.latched (.inl rfl)
  · exact h.soft rfl (fun hlatched => nomatch hlatched) (.inl rfl)

/-- A failed enabling goes back to wait for the next probe; any other failure is only noted. -/
theorem Sound.statusFailed (target : Int) (e : WriteErr) : Sound (t.statusFailed s target e) := by
  have hnoted : Sound (t.noteWriteFailure s e) := h.of_eq (circuit_noteWriteFailure e)
  unfold Setting.statusFailed
  split_ifs
  · exact hnoted.resetFailedCircuitEnable _
  · exact hnoted

/-- A write given up leaves the circuit to wait if the channel stays disabled. A fault
that is latched has it so: its own disabling is never given up. -/
theorem Sound.finishFailedWrite : Sound (t.finishFailedWrite s) := by
  simp only [Setting.finishFailedWrite]
  split_ifs with hown hearly hdisabled
  · exact h
  · refine ⟨fun htarget => ?_, fun hclosed => ?_, h.latched, h.target⟩
    · have : s.circuitStatusTarget = 0 := htarget
      omega
    · simp [circuit, noteWriteSuccess] at hclosed
  · exact h.waiting (.inl rfl) rfl (fun _ => hdisabled) (.inl rfl)
  · refine h.shut rfl ⟨rfl, rfl⟩ (fun hlatched => ?_) (.inl rfl)
    have hlatch : s.rest.routineCircuitLatched = true := hlatched
    have htarget : s.circuitStatusTarget = 0 ∨ s.circuitStatusTarget = 1 ∨ s.circuitStatusTarget = 2 := h.target
    have hheld : s.circuitDisabled = true := h.latched hlatch
    have hother : s.circuitStatusTarget ≠ 2 := fun heq => hown ⟨hlatch, heq⟩
    have hlive : s.circuitStatusTarget ≠ 3 := by omega
    simp [resetCounts, hheld, hother, hlive] at hdisabled

omit h

/-- The bookkeeping of writes is none of the circuit. -/
theorem circuit_trackWrites (b : BaseValue) : circuit (trackWrites b s) = circuit s := by
  unfold trackWrites
  dsimp only
  split_ifs <;> rfl

/-- Nor is the capacity control. -/
theorem circuit_updateCapacity {r : CapacityRules} {b : BaseValue} {asOf now : Time} {available : Bool}
    {maxDecreasePercent : Rat} :
    circuit (updateCapacity r b s asOf now available maxDecreasePercent) = circuit s := by
  simp only [updateCapacity]
  split_ifs <;> rfl

theorem circuit_capacityUpdated (t : Tick) : circuit (t.capacityUpdated s) = circuit s := by
  simp only [Tick.capacityUpdated]
  split
  · exact circuit_updateCapacity
  · exact circuit_updateCapacity

theorem circuit_bounded : circuit (Tick.bounded s).1 = circuit s := by
  unfold Tick.bounded applyCapacityTarget
  dsimp only
  split_ifs <;> rfl

theorem circuit_endIdleRetry (t : Tick) : circuit (t.endIdleRetry s) = circuit s := by
  unfold Tick.endIdleRetry
  split_ifs <;> rfl

/-- A channel without a weight has its circuit closed. -/
theorem Sound.unweighted (h : Sound s) : Sound (Tick.unweighted s) := by
  simp only [Tick.unweighted]
  split_ifs
  · exact h.shut rfl ⟨rfl, rfl⟩ h.latched (.inr rfl)
  · exact h.shut rfl ⟨rfl, rfl⟩ h.latched (.inr rfl)

/-- A state without a phase is taken for normal. -/
theorem Sound.named (h : Sound s) (hphase : s'.rest.phase =
      if s.rest.phase = .blank then .normal else s.rest.phase)
    (heq : circuit s' = {circuit s with phase := s'.rest.phase}) : Sound s' := by
  unfold Sound
  rw [heq, hphase]
  split_ifs with hblank
  · obtain ⟨hopened, hnext⟩ := h.closed (.inr hblank)
    exact ⟨fun _ hopen => by simp at hopen, fun _ => ⟨hopened, hnext⟩, h.latched, h.target⟩
  · exact h

end Helpers

/-! ### What the jobs persist -/

/-- A request that leaves a sound row sound. -/
def Request.Sound : Request → Prop
  | .put v => Dispatch.Sound v
  | .change c => ∀ target ∈ c.status, target = 1 ∨ target = 2
  | _ => True

section Jobs
variable {t : Setting} {s : State} {rule : Rule}

theorem sound_persist (h : Sound s) : (t.persist s).Spec Request.Sound fun _ => True :=
  spec_put.mpr ⟨h.of_eq rfl, fun _ => trivial⟩

/-- The answer to a pending write leaves the state sound. -/
theorem sound_settleCapacityWrite (h : Sound s) : (t.settleCapacityWrite s).Spec Request.Sound Sound := by
  unfold Setting.settleCapacityWrite
  split_ifs
  · exact h
  · exact spec_result.mpr ⟨trivial, h.settled⟩

/-- The state is put before the change is asked for, and is sound at both. -/
theorem sound_createTrackedWeightChange (h : Sound s) :
    (t.createTrackedWeightChange s rule).Spec Request.Sound fun r => Sound r.2 := by
  have htracked : Sound (t.tracked s) := h.of_eq (circuit_trackWrites t.base)
  unfold Setting.createTrackedWeightChange
  split_ifs
  · exact h
  refine spec_put.mpr ⟨htracked, fun failure => ?_⟩
  cases failure with
  | some e => exact htracked
  | none =>
    refine spec_change.mpr ⟨fun target htarget => (nomatch htarget), fun created => ?_⟩
    cases created with
    | refused e => exact htracked
    | made id clock queued =>
      have hawaited {weight : Int} : Sound (awaitWrite (t.tracked s) id weight) := htracked.of_eq rfl
      dsimp only
      split_ifs
      · exact (hawaited.confirmed _ _ _).of_eq rfl
      · exact (sound_settleCapacityWrite hawaited).bind fun _ hsettled => hsettled

theorem sound_awaitCircuitStatus (h : Sound s) (target : Int) :
    (t.awaitCircuitStatus s target).Spec Request.Sound Sound := by
  have hcleared : Sound {s with rest := {s.rest with circuitStatusCommandID := ""}} := h.of_eq rfl
  refine spec_status.mpr ⟨trivial, fun answer => ?_⟩
  rcases answer with _ | (_ | _ | _ | _ | _)
  · exact h
  · exact h
  · exact h
  · exact h.statusApplied target
  · exact hcleared.statusFailed target .failed
  · exact hcleared.statusFailed target .failed

/-- A status is asked for once; after that its command is awaited. -/
theorem sound_enqueueCircuitStatus (h : Sound s) {target : Int} (htarget : target = 1 ∨ target = 2) :
    (t.enqueueCircuitStatus s target).Spec Request.Sound Sound := by
  unfold Setting.enqueueCircuitStatus
  split_ifs
  · exact sound_awaitCircuitStatus h target
  · exact h
  · exact h
  refine spec_change.mpr ⟨fun _ hstatus => ?_, fun created => ?_⟩
  · cases hstatus
    exact htarget
  cases created with
  | refused e => exact h.statusFailed target e
  | made id clock queued =>
    have hsent : Sound {s with rest := {s.rest with circuitStatusCommandID := id}} := h.of_eq rfl
    dsimp only
    split_ifs
    · exact h.statusApplied target
    · exact sound_awaitCircuitStatus hsent target

/-- A sound state never waits for the status 3 of earlier versions. -/
theorem sound_advanceCircuitStatus (h : Sound s) (htarget : s.circuitStatusTarget ≠ 0) :
    (t.advanceCircuitStatus s).Spec Request.Sound Sound := by
  have hcases : s.circuitStatusTarget = 0 ∨ s.circuitStatusTarget = 1 ∨ s.circuitStatusTarget = 2 := h.target
  unfold Setting.advanceCircuitStatus
  split_ifs with hlegacy
  · omega
  · exact sound_enqueueCircuitStatus h (by omega)

end Jobs

namespace Tick
variable {t : Tick} {s : State}

variable (h : Sound s)
include h

/-- The end of most ways through a job. -/
theorem sound_writeWeight : (t.writeWeight s).Spec Request.Sound fun _ => True := by
  have hbounded : Sound (t.endIdleRetry (bounded s).1) :=
    h.of_eq ((circuit_endIdleRetry t).trans circuit_bounded)
  simp only [writeWeight]
  split_ifs
  · refine (sound_createTrackedWeightChange hbounded).bind fun r hr => ?_
    obtain ⟨_ | (_ | _), s'⟩ := r
    · exact sound_persist hr
    · exact sound_persist hr
    · exact sound_persist (hr.of_eq rfl)
  · exact sound_persist hbounded

/-- The next probe is set before the zero weight is asked for. -/
theorem sound_openCircuit : (t.openCircuit s).Spec Request.Sound fun _ => True := by
  simp only [openCircuit]
  split_ifs
  · refine (sound_createTrackedWeightChange h.opened).bind fun r hr => ?_
    obtain ⟨_ | e, s'⟩ := r
    · exact sound_persist hr
    · exact sound_persist (hr.unopened.of_eq (circuit_noteWriteFailure e))
  · exact sound_persist h.opened

theorem sound_evaluateServing : (t.evaluateServing s).Spec Request.Sound fun _ => True := by
  have hproposed {weight : Int} : Sound {s with rest := {s.rest with proposedWeight := weight}} := h.of_eq rfl
  simp only [evaluateServing]
  split_ifs
  · exact sound_openCircuit hproposed
  · exact sound_persist hproposed
  · exact sound_writeWeight hproposed
  · exact sound_writeWeight hproposed

theorem sound_evaluatePhase : (t.evaluatePhase s).Spec Request.Sound fun _ => True := by
  unfold evaluatePhase
  split
  case h_1 hphase =>
    split_ifs with hdue
    · have hnext : s.rest.nextProbeAt.isSome := by
        cases hnext : s.rest.nextProbeAt with
        | none => simp [hnext] at hdue
        | some next => rfl
      refine spec_probe.mpr ⟨trivial, fun answer => ?_⟩
      cases answer with
      | none => exact sound_persist (h.of_eq rfl)
      | some id => exact sound_persist (h.waiting (.inr rfl) hnext h.latched (.inr rfl))
    · exact sound_persist h
  case h_2 hphase =>
    split_ifs
    · exact sound_persist (h.waiting (.inl rfl) rfl h.latched (.inr rfl))
    · exact sound_persist h
  case h_3 hphase =>
    split_ifs
    · exact sound_persist (h.of_eq rfl)
    · exact sound_evaluateServing h.unopened
  · exact sound_evaluateServing h
  · exact sound_evaluateServing h

theorem sound_evaluatePassive : (t.evaluatePassive s).Spec Request.Sound fun _ => True := by
  simp only [evaluatePassive]
  split_ifs
  · exact sound_persist (h.unopened.of_eq rfl)
  · exact sound_evaluatePhase (h.of_eq rfl)
  · exact sound_evaluatePhase h

theorem sound_startCircuitStatus (htarget : s.circuitStatusTarget ≠ 0) :
    (t.startCircuitStatus s).Spec Request.Sound fun _ => True := by
  refine spec_put.mpr ⟨h, fun failure => ?_⟩
  cases failure with
  | none => exact (sound_advanceCircuitStatus h htarget).bind fun _ => sound_persist
  | some e => exact sound_persist h

/-- A failed round sets the time of the next. -/
theorem sound_backToCircuit : Sound (t.backToCircuit s) :=
  h.waiting (.inl rfl) rfl h.latched (.inr rfl)

/-- A round that succeeded enables the channel or starts it softly. -/
theorem sound_recover : (t.recover s).Spec Request.Sound fun _ => True := by
  have hsoft : Sound (t.softStarted s) := h.soft rfl h.latched (.inr rfl)
  simp only [recover]
  split_ifs
  · exact sound_persist h
  · refine sound_startCircuitStatus ⟨fun htarget => (nomatch htarget), h.closed, h.latched, .inr (.inl rfl)⟩ ?_
    simp
  · refine (sound_createTrackedWeightChange hsoft).bind fun r hr => ?_
    obtain ⟨_ | e, s'⟩ := r
    · exact sound_persist (hr.of_eq rfl)
    · have hback : Sound (t.backToCircuit {s' with rest := {s'.rest with softStartPending := false}}) :=
        sound_backToCircuit (hr.of_eq rfl)
      exact sound_evaluatePassive (hback.of_eq (circuit_noteWriteFailure (t := t.toSetting) e))
  · exact sound_persist (hsoft.of_eq rfl)

/-- A round disables the channel, recovers it or goes back to wait. -/
theorem sound_foldRound (completeRound : Bool) :
    (t.foldRound s completeRound).Spec Request.Sound fun _ => True := by
  unfold foldRound
  split_ifs
  · refine sound_startCircuitStatus ⟨fun htarget => (nomatch htarget), h.closed, fun _ => rfl, .inr (.inr rfl)⟩ ?_
    simp
  · exact sound_recover h
  · exact sound_evaluatePassive ((sound_backToCircuit h).of_eq rfl)

theorem sound_evaluateRound : (t.evaluateRound s).Spec Request.Sound fun _ => True := by
  unfold evaluateRound
  split_ifs
  · refine spec_completedProbeCount.mpr ⟨trivial, fun answer => ?_⟩
    cases answer with
    | none => trivial
    | some expected => exact sound_foldRound h _
  · exact sound_foldRound h false
  · exact sound_evaluatePassive h

theorem sound_evaluateTarget (htarget : s.circuitStatusTarget ≠ 0) :
    (t.evaluateTarget s).Spec Request.Sound fun _ => True := by
  unfold evaluateTarget
  split_ifs
  · exact sound_persist h
  · exact sound_persist (h.resetFailedCircuitEnable _)
  · exact (sound_advanceCircuitStatus h htarget).bind fun _ => sound_persist

theorem sound_evaluateWeighted : (t.evaluateWeighted s).Spec Request.Sound fun _ => True := by
  unfold evaluateWeighted
  split_ifs with _ _ htarget
  · exact sound_persist h.finishFailedWrite
  · trivial
  · exact sound_evaluateTarget h htarget
  · trivial
  · exact sound_persist h
  · exact sound_evaluateRound (h.of_eq rfl)
  · exact sound_evaluateRound h

theorem sound_evaluateOwned : (t.evaluateOwned s).Spec Request.Sound fun _ => True := by
  have hunmixed : Sound (unmixed s) := h.of_eq rfl
  unfold evaluateOwned
  split_ifs
  · trivial
  · exact sound_persist (h.of_eq rfl)
  · exact sound_persist hunmixed.unweighted
  · exact sound_evaluateWeighted hunmixed

theorem sound_evaluateCapacity : (t.evaluateCapacity s).Spec Request.Sound Sound := by
  have hrates : Sound (t.withRates s) := h.of_eq rfl
  simp only [evaluateCapacity]
  split_ifs
  · exact (sound_settleCapacityWrite hrates).bind fun _ hsettled => hsettled.of_eq (circuit_capacityUpdated t)
  · exact hrates

omit h

theorem sound_evaluate (known : Bool) (h : Sound s) :
    (t.evaluate known s).Spec Request.Sound fun _ => True := by
  have htaken : Sound (t.takenUp s) := h.named rfl rfl
  have hupdated : (t.updateChannel known s).Spec Request.Sound fun r => ∀ s' ∈ r, Sound s' := by
    have hcapacity {s : State} (h : Sound s) :
        (some <$> t.evaluateCapacity s).Spec Request.Sound fun r => ∀ s' ∈ r, Sound s' :=
      (sound_evaluateCapacity h).bind fun s hs s' hs' => by
        cases hs'
        exact hs
    simp only [updateChannel]
    split_ifs
    · exact fun s' hs' => nomatch hs'
    · exact fun s' hs' => nomatch hs'
    · exact spec_put.mpr ⟨htaken.of_eq rfl, fun _ => hcapacity (htaken.of_eq rfl)⟩
    · exact hcapacity htaken
  refine hupdated.bind fun r hr => ?_
  cases r with
  | none => trivial
  | some s' => exact sound_evaluateOwned (hr s' rfl)

end Tick

theorem FastCircuit.sound_evaluate {t : FastCircuit} {s : State} (h : Sound s) :
    (t.evaluate s).Spec Request.Sound fun _ => True := by
  unfold FastCircuit.evaluate
  extract_lets columns named
  have hnamed : Sound named := h.named rfl rfl
  split_ifs
  · trivial
  · have hopened : Sound (t.opened named) := hnamed.opened
    refine Dialogue.Spec.bind (sound_createTrackedWeightChange ?_) fun r hr => ?_
    · exact hopened.of_eq rfl
    obtain ⟨_ | e, s'⟩ := r
    · exact sound_persist hr
    · exact sound_persist (hr.unopened.of_eq (circuit_noteWriteFailure e))

theorem RoutineEvidence.sound_evaluate {t : RoutineEvidence} {s : State} (h : Sound s) :
    (t.evaluate s).Spec Request.Sound fun _ => True := by
  have hnamed : Sound {s with modelName := t.model} := h.of_eq rfl
  unfold RoutineEvidence.evaluate
  split_ifs
  · trivial
  · refine (sound_settleCapacityWrite hnamed).bind fun s' _ => ?_
    have hlatched : Sound (t.latched s') := by
      refine ⟨fun htarget => (nomatch htarget), fun hclosed => ?_, fun _ => rfl, .inr (.inr rfl)⟩
      simp [circuit, RoutineEvidence.latched, resetCounts] at hclosed
    refine spec_put.mpr ⟨hlatched, fun failure => ?_⟩
    cases failure with
    | some e => trivial
    | none =>
      have htarget : (t.latched s').circuitStatusTarget ≠ 0 := by simp [RoutineEvidence.latched, resetCounts]
      exact (sound_advanceCircuitStatus hlatched htarget).bind fun _ => sound_persist

/-! ### Every run -/

theorem sound_none : Sound (readState none) where
  probed _ hopen := by simp [circuit, readState] at hopen
  closed _ := ⟨rfl, rfl⟩
  latched hlatched := nomatch hlatched
  target := .inl rfl

/-- A reset forgets the circuit. -/
theorem sound_reset (r : Row Columns) (row : Store) (paused : PausedReason) (weight : Int) (now : Time) :
    Sound (readState (some (r.reset paused (resetColumns row weight) now))) where
  probed _ hopen := by simp [circuit, readState, Row.reset, resetColumns] at hopen
  closed _ := ⟨rfl, rfl⟩
  latched hlatched := nomatch hlatched
  target := .inl rfl

theorem StoreEvent.sound_apply (row : Store) (e : StoreEvent) (h : Sound (readState row)) :
    Sound (readState (e.apply row)) := by
  cases e with
  | beginManual model weight now => exact sound_reset _ _ _ _ _
  | finishManual revision target succeeded now =>
    cases row with
    | none => exact h
    | some r =>
      simp only [StoreEvent.apply, Tuning.finishManual]
      split_ifs <;> exact h.of_eq rfl
  | finishSchedule target written now =>
    cases row with
    | none => cases written <;> exact h
    | some r => cases written <;> exact h.of_eq rfl
  | reconcile previouslyDisabled manualPending weight capturedAt =>
    cases row with
    | none => exact h
    | some r =>
      simp only [StoreEvent.apply, Tuning.reconcile, map_some]
      split_ifs
      · exact sound_reset _ _ _ _ _
      · exact h
  | recordProbeResult command attempts successes slowStreak duration now =>
    cases row with
    | none =>
      simp only [StoreEvent.apply, Tuning.recordProbeResult]
      split_ifs <;> exact h
    | some r =>
      simp only [StoreEvent.apply, Tuning.recordProbeResult, map_some]
      split_ifs <;> exact h.of_eq rfl
  | deleteForModel model =>
    cases row with
    | none => exact h
    | some r =>
      simp only [StoreEvent.apply, Tuning.deleteForModel, filter_some]
      split_ifs
      · exact h
      · exact sound_none

/-- Where a change leaves its mark, the target is the one it asked for. -/
theorem sound_mark {c : Change} (hc : Request.Sound (.change c)) (id : String) {r : Row Columns}
    (h : Sound (readState (some r))) : Sound (readState (some (c.mark id r))) := by
  unfold Change.mark
  split
  · exact h
  split
  case h_1 target hstatus =>
    have htarget := hc target hstatus
    split_ifs
    · refine ⟨fun hzero => ?_, h.closed, h.latched, .inr htarget⟩
      have : target = 0 := hzero
      omega
    · exact h
  case h_2 => exact h.of_eq rfl

/-- The store keeps a row sound if the request is. -/
theorem sound_serve {q : Request} (hq : q.Sound) (row : Store) (answer : Answer q) (h : Sound (readState row)) :
    Sound (readState (serve row q answer).2) := by
  cases q with
  | put v =>
    cases answer with
    | some e => exact h
    | none =>
      simp only [serve, putContinuousState]
      split_ifs
      · exact h
      · exact hq.of_eq rfl
  | change c =>
    cases answer with
    | refused e => exact h
    | made id clock queued =>
      have hmarked : Sound (readState (row.map (c.mark id))) := by
        cases row with
        | none => exact h
        | some r => exact sound_mark hq id h
      simp only [serve, Change.create]
      split
      · exact h
      · split_ifs
        · exact hmarked
        · exact h
        · exact h
  | probe => exact h
  | result id => exact h
  | status id => exact h
  | completedProbeCount => exact h

/-- No matter where the job is cut off. -/
theorem sound_step (row : Store) (event : Event) (h : Sound (readState row)) :
    Sound (readState (step row event)) := by
  have hjob {job : Job Unit} {turns : List Turn} (hspec : job.Spec Request.Sound fun _ => True) :
      Sound (readState (runJob job row turns)) := by
    let SoundRow : Store → Prop := fun row => Sound (readState row)
    have hkept : job.Spec (fun q => ∀ row answer, SoundRow row → SoundRow (serve row q answer).2) fun _ => True :=
      hspec.imp (fun _ hq row answer => sound_serve hq row answer) fun _ _ => trivial
    exact Dialogue.run_inv StoreEvent.sound_apply hkept turns h
  cases event with
  | evaluate t turns => exact hjob (Tick.sound_evaluate _ h)
  | fastCircuit t turns => exact hjob (FastCircuit.sound_evaluate h)
  | routineEvidence t turns => exact hjob (RoutineEvidence.sound_evaluate h)
  | store e => exact StoreEvent.sound_apply row e h

theorem sound_run (events : List Event) : Sound (readState (run events)) :=
  events.foldlRecOn step sound_none fun row hrow event _ => sound_step row event hrow

/-- In every run a circuit that waits for no status command has the time of its next
probe, a closed one has no times, and a latched fault has the channel disabled. -/
theorem no_circuit_stranded (events : List Event) :
    let s := readState (run events)
    (s.circuitStatusTarget = 0 → s.rest.phase = .circuit ∨ s.rest.phase = .probing →
      ∃ next, s.rest.nextProbeAt = some next) ∧
    (s.rest.phase = .normal → s.rest.circuitOpenedAt = none ∧ s.rest.nextProbeAt = none) ∧
    (s.rest.routineCircuitLatched = true → s.circuitDisabled = true) := by
  have h := sound_run events
  exact ⟨fun htarget hopen => isSome_iff_exists.mp (h.probed htarget hopen),
    fun hphase => h.closed (.inl hphase), h.latched⟩

end ControlTower.Dispatch
