import ControlTower.Dispatch.Evaluation

/-! Capacity is a one-way guard.

Once the capacity update of an evaluation leaves the channel limited, nothing that
the evaluation commands raises the weight or brings the channel back; and while a
tracked command is on its way, the only weight that can be commanded is the zero of
an opening circuit. -/
namespace ControlTower.Dispatch
open Go Tuning Data

/-- A request that commands only what satisfies `P`. -/
def Request.Commands (P : Change → Prop) : Request → Prop
  | .change c => P c
  | _ => True

/-- Whatever the answers are, the job commands only what satisfies `P`. -/
abbrev Commanding {R : Type} (P : Change → Prop) (job : Job R) : Prop :=
  job.Spec (Request.Commands P) fun _ => True

/-- A command that neither raises the weight nor brings the channel back. -/
structure Change.Guarded (c : Change) : Prop where
  lowers : c.proposedWeight ≤ c.currentWeight
  disables : c.status ≠ some 1
  noRecovery : c.rule ≠ .circuitRecovered

/-- A command that sets a weight only to zero, for an opening circuit. -/
def Change.ZeroOnly (c : Change) : Prop :=
  c.status = none → c.rule = .circuitOpened ∧ c.proposedWeight = 0

/-- No weight is negative, and a channel that waits to be disabled is to carry none. -/
structure Orderly (s : State) : Prop where
  written : ∀ weight ∈ s.rest.lastWrittenWeight, 0 ≤ weight
  confirmed : 0 ≤ s.rest.capacity.confirmedWeight
  pending : 0 ≤ s.rest.capacity.pendingWeight
  disabling : s.circuitStatusTarget ≠ 0 → s.circuitStatusTarget ≠ 1 → s.rest.proposedWeight = 0

section
variable {P : Change → Prop} {post : State → Prop} {t : Setting} {s : State} {rule : Rule}

theorem commands_persist (s : State) : Commanding P (t.persist s) :=
  spec_put.mpr ⟨trivial, fun _ => trivial⟩

theorem commands_settleCapacityWrite :
    Commanding P (t.settleCapacityWrite s) := by
  unfold Setting.settleCapacityWrite
  split_ifs
  · trivial
  · exact spec_result.mpr ⟨trivial, fun _ => trivial⟩

theorem commands_awaitCircuitStatus {target : Int} :
    Commanding P (t.awaitCircuitStatus s target) := by
  refine spec_status.mpr ⟨trivial, fun answer => ?_⟩
  rcases answer with _ | (_ | _ | _ | _ | _) <;> trivial

/-- The one command of a tracked write is the state's. -/
theorem commands_createTrackedWeightChange (h : P (Setting.trackedChange (t.tracked s) rule)) :
    Commanding P (t.createTrackedWeightChange s rule) := by
  unfold Setting.createTrackedWeightChange
  split_ifs
  · trivial
  · refine spec_put.mpr ⟨trivial, fun failure => ?_⟩
    cases failure with
    | some e => trivial
    | none =>
      refine spec_change.mpr ⟨h, fun created => ?_⟩
      cases created with
      | refused e => trivial
      | made id clock queued =>
        dsimp only
        split_ifs
        · trivial
        · exact commands_settleCapacityWrite.bind fun _ _ => trivial

/-- A status command is created unless one is on its way or the recovery is blocked. -/
theorem commands_enqueueCircuitStatus {target : Int}
    (h : (target = 1 → capacityRecoveryBlocked t.base s = false) → P (t.statusChange s target)) :
    Commanding P (t.enqueueCircuitStatus s target) := by
  unfold Setting.enqueueCircuitStatus
  split_ifs with _ hblocked
  · exact commands_awaitCircuitStatus
  · trivial
  · trivial
  · have hopen : target = 1 → capacityRecoveryBlocked t.base s = false := by
      intro htarget
      simpa [htarget] using hblocked
    refine spec_change.mpr ⟨h hopen, fun created => ?_⟩
    cases created with
    | refused e => trivial
    | made id clock queued =>
      dsimp only
      split_ifs
      · trivial
      · exact commands_awaitCircuitStatus

theorem commands_advanceCircuitStatus
    (h : ∀ target, target = s.circuitStatusTarget ∨ target = 2 ∧ s.circuitStatusTarget = 3 →
      (target = 1 → capacityRecoveryBlocked t.base s = false) → P (t.statusChange s target)) :
    Commanding P (t.advanceCircuitStatus s) := by
  unfold Setting.advanceCircuitStatus
  split_ifs with hlegacy
  · refine spec_put.mpr ⟨trivial, fun failure => ?_⟩
    cases failure with
    | some e => trivial
    | none => exact commands_enqueueCircuitStatus (h 2 (.inr ⟨rfl, hlegacy.1⟩))
  · exact commands_enqueueCircuitStatus (h _ (.inl rfl))

end

/-! ### What an evaluation may command after its capacity update -/

namespace Tick
variable {P : Change → Prop} {t : Tick} {s : State}

/-- The weight that a tracked write of the state takes for the current one. -/
def trackedWeight (t : Tick) (s : State) : Int := (trackWrites t.base s).rest.capacity.confirmedWeight

/-- What stays of a state while an evaluation makes up its mind. -/
structure Alike (s s' : State) : Prop where
  revision : s'.controlRevision = s.controlRevision
  capacity : s'.rest.capacity = s.rest.capacity
  capacityLimited : s'.rest.capacityLimited = s.rest.capacityLimited
  lastWrittenWeight : s'.rest.lastWrittenWeight = s.rest.lastWrittenWeight
  lastWriteAt : s'.lastWriteAt = s.lastWriteAt

theorem Alike.effectiveCurrentWeight {s s' : State} (h : Alike s s') (b : BaseValue) :
    effectiveCurrentWeight b s' = effectiveCurrentWeight b s := by
  simp only [Dispatch.effectiveCurrentWeight, h.lastWrittenWeight, h.lastWriteAt]

theorem Alike.trackedWeight {s s' : State} (h : Alike s s') : t.trackedWeight s' = t.trackedWeight s := by
  simp only [Tick.trackedWeight, trackWrites, h.capacity, h.effectiveCurrentWeight]
  split_ifs with hinit
  · rw [h.capacity]
  · rfl

/-- The commands that the evaluation may create from a state that its capacity
holds back: all of them satisfy `P`. -/
structure Allows (t : Tick) (P : Change → Prop) (s : State) : Prop where
  blocked : capacityRecoveryBlocked t.base s = true
  limited : s.rest.capacity.pendingCommandID = "" → s.rest.capacityLimited = true
  opened : P ⟨.circuitOpened, s.controlRevision, none, t.trackedWeight s, 0⟩
  written : s.rest.capacity.pendingCommandID = "" → ∀ rule weight,
    rule = .weightWrite ∨ rule = .capacityReduce → weight ≤ effectiveCurrentWeight t.base s →
    P ⟨rule, s.controlRevision, none, t.trackedWeight s, weight⟩
  disabled : ∀ target, target ≠ 1 → P ⟨.circuitDisabled, s.controlRevision, some target,
    if s.rest.capacity.initialized then s.rest.capacity.confirmedWeight else t.base.currentWeight, 0⟩

theorem Allows.alike {s s' : State} (h : t.Allows P s) (hs : Alike s s') : t.Allows P s' where
  blocked := by
    have := h.blocked
    simp only [capacityRecoveryBlocked, hs.capacity, hs.capacityLimited] at this ⊢
    exact this
  limited := by
    rw [hs.capacity, hs.capacityLimited]
    exact h.limited
  opened := by
    rw [hs.revision, hs.trackedWeight]
    exact h.opened
  written := by
    rw [hs.revision, hs.trackedWeight, hs.capacity, hs.effectiveCurrentWeight]
    exact h.written
  disabled := by
    rw [hs.revision, hs.capacity]
    exact h.disabled

theorem trackedChange_tracked (s : State) (rule : Rule) :
    Setting.trackedChange (t.tracked s) rule =
      ⟨rule, s.controlRevision, none, t.trackedWeight s, s.rest.proposedWeight⟩ := by
  simp only [Setting.trackedChange, Setting.tracked, trackedWeight, trackWrites]
  split_ifs <;> rfl

/-- Under a limit the performance of the channel proposes no increase. -/
theorem proposal_le (h : s.rest.capacityLimited = true) : t.proposal s ≤ effectiveCurrentWeight t.base s := by
  have hle : ∀ proposed : Int, (if s.rest.capacityLimited ∧ effectiveCurrentWeight t.base s < proposed
      then effectiveCurrentWeight t.base s else proposed) ≤ effectiveCurrentWeight t.base s := by
    intro proposed
    split_ifs with hhigh
    · exact Int.le_refl _
    · simpa [h] using hhigh
  unfold proposal
  split_ifs <;> first | exact hle _ | (rw [limitWeightIncrease, if_pos (.inl (hle _))]; exact hle _)

/-- The capacity target changes the proposal only, and never upwards unless a
command is on its way. -/
theorem applyCapacityTarget_le (hpending : s.rest.capacity.pendingCommandID = "") :
    (applyCapacityTarget s).1.rest.proposedWeight ≤ s.rest.proposedWeight := by
  simp only [applyCapacityTarget, hpending, ne_eq, not_true_eq_false, if_false]
  split_ifs
  · exact Int.le_refl _
  · exact Int.min_le_left _ _
  · exact Int.min_le_left _ _

theorem applyCapacityTarget_alike : Alike s (applyCapacityTarget s).1 := by
  simp only [applyCapacityTarget]
  split_ifs <;> exact ⟨rfl, rfl, rfl, rfl, rfl⟩

theorem endIdleRetry_alike : Alike s (t.endIdleRetry s) := by
  unfold endIdleRetry
  split_ifs <;> exact ⟨rfl, rfl, rfl, rfl, rfl⟩

theorem endIdleRetry_proposedWeight : (t.endIdleRetry s).rest.proposedWeight = s.rest.proposedWeight := by
  unfold endIdleRetry
  split_ifs <;> rfl

theorem Alike.trans {s s' s'' : State} (h : Alike s s') (h' : Alike s' s'') : Alike s s'' :=
  ⟨h'.1.trans h.1, h'.2.trans h.2, h'.3.trans h.3, h'.4.trans h.4, h'.5.trans h.5⟩

/-- A channel that waits to be disabled, or to be enabled behind the guard. -/
theorem Allows.advanceCircuitStatus (h : t.Allows P s)
    (hzero : s.circuitStatusTarget ≠ 1 → s.rest.proposedWeight = 0) :
    Commanding P (t.advanceCircuitStatus s) := by
  apply commands_advanceCircuitStatus
  intro target hcase hopen
  have htarget : target ≠ 1 := by
    intro heq
    simpa [h.blocked] using hopen heq
  have hnot : s.circuitStatusTarget ≠ 1 := by
    rcases hcase with rfl | ⟨-, heq⟩
    · exact htarget
    · simp [heq]
  simp only [Setting.statusChange, htarget, if_false, hzero hnot]
  exact h.disabled target htarget

theorem Allows.startCircuitStatus (h : t.Allows P s)
    (hzero : s.circuitStatusTarget ≠ 1 → s.rest.proposedWeight = 0) :
    Commanding P (t.startCircuitStatus s) := by
  refine spec_put.mpr ⟨trivial, fun failure => ?_⟩
  cases failure with
  | some e => exact commands_persist _
  | none => exact (h.advanceCircuitStatus hzero).bind fun _ _ => commands_persist _

theorem bounded_alike : Alike s (bounded s).1 := by
  unfold bounded
  split_ifs
  · exact applyCapacityTarget_alike
  · exact ⟨rfl, rfl, rfl, rfl, rfl⟩

theorem bounded_le (hpending : s.rest.capacity.pendingCommandID = "") :
    (bounded s).1.rest.proposedWeight ≤ s.rest.proposedWeight := by
  unfold bounded
  split_ifs
  · exact applyCapacityTarget_le hpending
  · exact Int.le_refl _

theorem writeRule_cases (reduction : Bool) :
    writeRule reduction = .weightWrite ∨ writeRule reduction = .capacityReduce := by
  cases reduction <;> simp [writeRule]

theorem Allows.writeWeight (h : t.Allows P s)
    (hle : s.rest.capacity.pendingCommandID = "" → s.rest.proposedWeight ≤ effectiveCurrentWeight t.base s) :
    Commanding P (t.writeWeight s) := by
  have halike : Alike s (t.endIdleRetry (bounded s).1) := bounded_alike.trans endIdleRetry_alike
  unfold Tick.writeWeight
  dsimp only
  split_ifs with hwrite
  · have hpending : s.rest.capacity.pendingCommandID = "" := halike.capacity ▸ hwrite.2.2.2
    refine (commands_createTrackedWeightChange ?_).bind fun outcome _ => ?_
    · rw [trackedChange_tracked, halike.revision, halike.trackedWeight, endIdleRetry_proposedWeight]
      exact h.written hpending _ _ (writeRule_cases _) ((bounded_le hpending).trans (hle hpending))
    · obtain ⟨_ | (_ | _), s'⟩ := outcome <;> exact commands_persist _
  · exact commands_persist _

theorem Allows.openCircuit (h : t.Allows P s) :
    Commanding P (t.openCircuit s) := by
  unfold Tick.openCircuit
  have halike : Alike s (t.opened s) := ⟨rfl, rfl, rfl, rfl, rfl⟩
  split_ifs
  · refine (commands_createTrackedWeightChange ?_).bind fun outcome _ => ?_
    · rw [trackedChange_tracked, halike.revision, halike.trackedWeight]
      exact h.opened
    · obtain ⟨_ | e, s'⟩ := outcome <;> exact commands_persist _
  · exact commands_persist _

theorem Allows.evaluateServing (h : t.Allows P s) :
    Commanding P (t.evaluateServing s) := by
  have hproposed (weight : Int) : Alike s {s with rest := {s.rest with proposedWeight := weight}} :=
    ⟨rfl, rfl, rfl, rfl, rfl⟩
  unfold Tick.evaluateServing
  dsimp only
  split_ifs
  · exact (h.alike (hproposed _)).openCircuit
  · exact commands_persist _
  · exact (h.alike (hproposed _)).writeWeight fun _ => Int.le_refl _
  · exact (h.alike (hproposed _)).writeWeight fun hpending => proposal_le (h.limited hpending)

theorem Allows.evaluatePhase (h : t.Allows P s) :
    Commanding P (t.evaluatePhase s) := by
  unfold Tick.evaluatePhase
  split
  · split_ifs
    · refine spec_probe.mpr ⟨trivial, fun created => ?_⟩
      cases created <;> exact commands_persist _
    · exact commands_persist _
  · split_ifs <;> exact commands_persist _
  · split_ifs
    · exact commands_persist _
    · exact Allows.evaluateServing (h.alike ⟨rfl, rfl, rfl, rfl, rfl⟩)
  · exact h.evaluateServing
  · exact h.evaluateServing

theorem Allows.evaluatePassive (h : t.Allows P s) :
    Commanding P (t.evaluatePassive s) := by
  unfold Tick.evaluatePassive
  split_ifs
  · exact commands_persist _
  · exact Allows.evaluatePhase (h.alike ⟨rfl, rfl, rfl, rfl, rfl⟩)
  · exact h.evaluatePhase

/-- A round may lead to the channel being disabled, never to a recovery. -/
theorem Allows.foldRound (h : t.Allows P s) {completeRound : Bool} :
    Commanding P (t.foldRound s completeRound) := by
  unfold Tick.foldRound
  split_ifs
  · exact Allows.startCircuitStatus (h.alike ⟨rfl, rfl, rfl, rfl, rfl⟩) fun _ => rfl
  · rw [Tick.recover, if_pos h.blocked]
    exact commands_persist _
  · exact Allows.evaluatePassive (h.alike ⟨rfl, rfl, rfl, rfl, rfl⟩)

theorem Allows.evaluateRound (h : t.Allows P s) :
    Commanding P (t.evaluateRound s) := by
  unfold Tick.evaluateRound
  split_ifs
  · refine spec_completedProbeCount.mpr ⟨trivial, fun answer => ?_⟩
    cases answer with
    | none => trivial
    | some expected => exact h.foldRound
  · exact h.foldRound
  · exact h.evaluatePassive

theorem Allows.evaluateTarget (h : t.Allows P s)
    (hzero : s.circuitStatusTarget ≠ 1 → s.rest.proposedWeight = 0) :
    Commanding P (t.evaluateTarget s) := by
  unfold Tick.evaluateTarget
  split_ifs
  · exact commands_persist _
  · exact commands_persist _
  · exact (h.advanceCircuitStatus hzero).bind fun _ _ => commands_persist _

theorem Allows.evaluateWeighted (h : t.Allows P s)
    (hzero : s.circuitStatusTarget ≠ 0 → s.circuitStatusTarget ≠ 1 → s.rest.proposedWeight = 0) :
    Commanding P (t.evaluateWeighted s) := by
  unfold Tick.evaluateWeighted
  split_ifs with _ _ htarget
  · exact commands_persist _
  · trivial
  · exact h.evaluateTarget (hzero htarget)
  · trivial
  · exact commands_persist _
  · exact Allows.evaluateRound (h.alike ⟨rfl, rfl, rfl, rfl, rfl⟩)
  · exact h.evaluateRound

theorem Allows.evaluateOwned (h : t.Allows P s)
    (hzero : s.circuitStatusTarget ≠ 0 → s.circuitStatusTarget ≠ 1 → s.rest.proposedWeight = 0) :
    Commanding P (t.evaluateOwned s) := by
  unfold Tick.evaluateOwned
  split_ifs
  · trivial
  · exact commands_persist _
  · exact commands_persist _
  · exact Allows.evaluateWeighted (h.alike ⟨rfl, rfl, rfl, rfl, rfl⟩) hzero

end Tick

/-! ### The state after the capacity update -/

variable {t : Tick} {s : State}

theorem effectiveCurrentWeight_nonneg {b : BaseValue} (hbase : 0 ≤ b.currentWeight)
    (h : ∀ weight ∈ s.rest.lastWrittenWeight, 0 ≤ weight) : 0 ≤ effectiveCurrentWeight b s := by
  unfold effectiveCurrentWeight
  split
  · rename_i weight wroteAt hweight _
    split_ifs
    · exact h weight hweight
    · exact hbase
  · exact hbase

/-- Nothing is changed but what an order does not ask for. -/
theorem Orderly.of_eq {s s' : State} (h : Orderly s)
    (hwritten : s'.rest.lastWrittenWeight = s.rest.lastWrittenWeight)
    (hconfirmed : s'.rest.capacity.confirmedWeight = s.rest.capacity.confirmedWeight)
    (hpending : s'.rest.capacity.pendingWeight = s.rest.capacity.pendingWeight)
    (htarget : s'.circuitStatusTarget = s.circuitStatusTarget)
    (hproposed : s'.rest.proposedWeight = s.rest.proposedWeight) : Orderly s' where
  written := by rw [hwritten]; exact h.written
  confirmed := by rw [hconfirmed]; exact h.confirmed
  pending := by rw [hpending]; exact h.pending
  disabling := by rw [htarget, hproposed]; exact h.disabling

theorem Orderly.confirmCapacityWrite {weight : Int} (h : Orderly s) (silentMinutes : Int) (appliedAt : Time)
    (hweight : 0 ≤ weight) : Orderly (confirmCapacityWrite silentMinutes s weight appliedAt) where
  written := by simpa [Dispatch.confirmCapacityWrite] using hweight
  confirmed := hweight
  pending := h.pending
  disabling := h.disabling

theorem Orderly.resetUnapplied {t : Setting} (h : Orderly s) :
    Orderly (t.resetUnappliedCapacityTransition s) := by
  unfold Setting.resetUnappliedCapacityTransition
  split_ifs
  · exact ⟨h.written, h.confirmed, h.pending, fun htarget => absurd rfl htarget⟩
  · exact h.of_eq rfl rfl rfl rfl rfl
  · exact h

theorem Orderly.settled {t : Setting} (h : Orderly s) (answer : Option (CommandStatus × Option Time)) :
    Orderly (t.settled s answer) := by
  rcases answer with _ | ⟨_ | _ | _ | _ | text, completedAt⟩
  · exact h
  · exact h
  · exact h
  · exact (h.confirmCapacityWrite t.params.silentMinutes _ h.pending).of_eq rfl rfl rfl rfl rfl
  · exact (h.of_eq rfl rfl rfl rfl rfl : Orderly (forgetWrite s)).resetUnapplied
  · exact (h.of_eq rfl rfl rfl rfl rfl : Orderly (forgetWrite s)).resetUnapplied.of_eq rfl rfl rfl rfl rfl

/-- The state that an evaluation goes on with after its capacity update. -/
structure Tick.Updated (t : Tick) (s : State) : Prop where
  orderly : Orderly s
  confirmed : t.base.capacityConfigured = true → s.rest.capacity.initialized = true →
    s.rest.capacity.pendingCommandID = "" →
    s.rest.capacity.confirmedWeight = effectiveCurrentWeight t.base s

theorem Orderly.capacityUpdated (hbase : 0 ≤ t.base.currentWeight) (h : Orderly s) :
    t.Updated (t.capacityUpdated s) := by
  obtain ⟨c, limited, heq, hid, hweight, hconfirmed⟩ := updateCapacity_eq t.params.capacity t.base s
    t.ratesAsOf t.now t.ratesAvailable t.params.capacityMaxDecreasePercent
  have hnonneg : 0 ≤ c.confirmedWeight := by
    rcases hconfirmed with ⟨hkept, -⟩ | hfound
    · rw [hkept]; exact h.confirmed
    · rw [hfound]; exact effectiveCurrentWeight_nonneg hbase h.written
  have hcarried : t.base.capacityConfigured = true → c.pendingCommandID = "" →
      c.confirmedWeight = effectiveCurrentWeight t.base s := by
    intro hconf hnone
    rcases hconfirmed with ⟨-, hpending⟩ | hfound
    · exact absurd (hid ▸ hnone) (hpending hconf)
    · exact hfound
  simp only [Tick.capacityUpdated, heq]
  split_ifs <;>
    exact ⟨⟨h.written, hnonneg, hweight ▸ h.pending, h.disabling⟩, fun hconf _ => hcarried hconf⟩

theorem Orderly.evaluateCapacity (hbase : 0 ≤ t.base.currentWeight) (h : Orderly s) :
    (t.evaluateCapacity s).Spec (Request.Commands fun _ => False) t.Updated := by
  have hrates : Orderly (t.withRates s) := h.of_eq rfl rfl rfl rfl rfl
  unfold Tick.evaluateCapacity
  dsimp only
  split_ifs with hupdates
  · unfold Setting.settleCapacityWrite
    split_ifs
    · exact hrates.capacityUpdated hbase
    · exact ⟨trivial, fun answer => (hrates.settled answer).capacityUpdated hbase⟩
  · refine ⟨hrates, fun _ hinit => ?_⟩
    simp [hinit] at hupdates

/-- Up to its capacity update an evaluation commands nothing. -/
theorem Orderly.updateChannel (hbase : 0 ≤ t.base.currentWeight) (h : Orderly s) (known : Bool) :
    (t.updateChannel known s).Spec (Request.Commands fun _ => False) fun after => ∀ s ∈ after, t.Updated s := by
  have htaken : Orderly (t.takenUp s) := h.of_eq rfl rfl rfl rfl rfl
  have hreturn {d : Job State} (hd : d.Spec (Request.Commands fun _ => False) t.Updated) :
      (some <$> d).Spec (Request.Commands fun _ => False) fun after => ∀ s ∈ after, t.Updated s :=
    hd.bind fun after hafter s hs => by cases hs; exact hafter
  simp only [Tick.updateChannel]
  split_ifs
  · simp
  · simp
  · exact spec_put.mpr ⟨trivial, fun _ =>
      hreturn (Orderly.evaluateCapacity hbase (htaken.of_eq rfl rfl rfl rfl rfl))⟩
  · exact hreturn (htaken.evaluateCapacity hbase)

theorem Tick.Updated.allows_guarded (h : t.Updated s) (hconf : t.base.capacityConfigured = true)
    (hbase : 0 ≤ t.base.currentWeight) (hlimited : s.rest.capacityLimited = true) :
    t.Allows Change.Guarded s := by
  have hcarries := effectiveCurrentWeight_nonneg hbase h.orderly.written
  have htracked : t.trackedWeight s =
      if s.rest.capacity.initialized then s.rest.capacity.confirmedWeight
      else effectiveCurrentWeight t.base s := by
    simp only [Tick.trackedWeight, trackWrites]
    split_ifs <;> rfl
  constructor
  · simp [capacityRecoveryBlocked, hconf, hlimited]
  · exact fun _ => hlimited
  · refine ⟨?_, by simp, by simp⟩
    rw [htracked]
    split_ifs
    · exact h.orderly.confirmed
    · exact hcarries
  · intro hpending rule weight hrule hle
    refine ⟨?_, by simp, by rcases hrule with rfl | rfl <;> simp⟩
    rw [htracked]
    split_ifs with hinit
    · rw [h.confirmed hconf hinit hpending]; exact hle
    · exact hle
  · intro target htarget
    refine ⟨?_, by simpa using htarget, by simp⟩
    split_ifs
    · exact h.orderly.confirmed
    · exact hbase

theorem Tick.allows_zeroOnly (h : s.rest.capacity.pendingCommandID ≠ "") : t.Allows Change.ZeroOnly s where
  blocked := by simp [capacityRecoveryBlocked, h]
  limited := fun hpending => absurd hpending h
  opened := fun _ => ⟨rfl, rfl⟩
  written := fun hpending => absurd hpending h
  disabled := by simp [Change.ZeroOnly]

/-- **Capacity is a one-way guard.** An evaluation is its capacity update and what
follows. The first part commands nothing. If it leaves the channel limited, every
command of the second part keeps or lowers the confirmed weight, and none of them
enables the channel or starts it softly; and if a tracked command is on its way, the
only weight it can command is the zero of an opening circuit. -/
theorem capacity_one_way (t : Tick) (known : Bool) (previous : State)
    (hconf : t.base.capacityConfigured = true) (hbase : 0 ≤ t.base.currentWeight) (hprev : Orderly previous) :
    (t.updateChannel known previous).Spec (Request.Commands fun _ => False) fun after => ∀ s ∈ after,
      (s.rest.capacityLimited = true →
        (t.evaluateOwned s).Spec (Request.Commands Change.Guarded) fun _ => True) ∧
      (s.rest.capacity.pendingCommandID ≠ "" →
        (t.evaluateOwned s).Spec (Request.Commands Change.ZeroOnly) fun _ => True) := by
  refine (hprev.updateChannel hbase known).imp (fun _ hq => hq) fun after hafter s hs => ?_
  have hupdated := hafter s hs
  constructor
  · intro hlimited
    exact (hupdated.allows_guarded hconf hbase hlimited).evaluateOwned hupdated.orderly.disabling
  · intro hpending
    exact (Tick.allows_zeroOnly hpending).evaluateOwned hupdated.orderly.disabling

/-- A tick whose rates could not be read, for a channel with a limit. -/
def withoutRates : Tick where
  now := Time.seconds 1000
  base := {baseWeight := 20, currentWeight := 10, snapshotAt := Time.seconds 900, maxRPM := 100}
  params := {}
  latestSilentMinutes := 5
  model := "m"
  mode := .auto
  schedule := {}
  hasRateSnapshot := true
  ratesAvailable := false
  ratesAsOf := Time.zero
  metricRPM := 0
  metricTPM := 0
  canDivert := false
  diversionReason := ""
  evidenceGap := false
  foldedRequests := 0
  foldedErrors := 0
  recovers := fun _ _ _ => false
  passiveRecovers := fun _ _ => false
  factor := 1
  passiveFactor := 1
  neutral := false
  trips := false
  sparse := false

/-- A channel that waits to be disabled, with a weight proposed. -/
def waiting (weight : Int) : State :=
  {readState none with
    circuitDisabled := true, circuitStatusTarget := 2, rest := {phase := .circuit, proposedWeight := weight}}

theorem capacity_one_way_waiting :
    withoutRates.base.capacityConfigured = true ∧ 0 ≤ withoutRates.base.currentWeight ∧ Orderly (waiting 0) ∧
      (withoutRates.updateChannel true (waiting 0)).Spec (Request.Commands fun _ => False) fun after =>
        ∀ s ∈ after,
          (s.rest.capacityLimited = true →
            (withoutRates.evaluateOwned s).Spec (Request.Commands Change.Guarded) fun _ => True) ∧
          (s.rest.capacity.pendingCommandID ≠ "" →
            (withoutRates.evaluateOwned s).Spec (Request.Commands Change.ZeroOnly) fun _ => True) :=
  have hprev : Orderly (waiting 0) := ⟨by simp [waiting], by decide, by decide, fun _ _ => rfl⟩
  ⟨by decide, by decide, hprev, capacity_one_way withoutRates true (waiting 0) (by decide) (by decide) hprev⟩

/-- A disabling command carries the weight that was persisted with its target. -/
theorem waiting_raises_weight :
    withoutRates.base.capacityConfigured = true ∧
      ¬(withoutRates.updateChannel true (waiting 50)).Spec (Request.Commands fun _ => False) fun after =>
        ∀ s ∈ after, s.rest.capacityLimited = true →
          (withoutRates.evaluateOwned s).Spec (Request.Commands Change.Guarded) fun _ => True := by
  refine ⟨by decide, fun h => ?_⟩
  have hafter : (withoutRates.updateChannel true (waiting 50)).returned =
      some (some (withoutRates.capacityUpdated (withoutRates.withRates (withoutRates.takenUp (waiting 50))))) := rfl
  have hguarded := (h.returned hafter _ rfl (by decide +kernel)).first
    (q := .change ⟨.circuitDisabled, 0, some 2, 10, 50⟩) rfl
  exact absurd hguarded.lowers (by decide)

/-! ### Negative weights -/

/-- The channel with a weight, and its circuit about to open. -/
def tripping (weight : Int) : Tick :=
  {withoutRates with base := {withoutRates.base with currentWeight := weight}, trips := true}

def holding (written : Option Int) (capacity : CapacityControl) : State :=
  {readState none with
    lastWriteAt := some (Time.seconds 950), rest := {lastWrittenWeight := written, capacity := capacity}}

/-- Puts succeed, and a command that is asked for has a status. -/
def replying (status : CommandStatus) : Dialogue.Turn Request Answer Unit where
  events := []
  answer
    | .put _ => none
    | .change _ => .refused .failed
    | .result _ => some (status, some (Time.seconds 980))
    | .probe | .status _ | .completedProbeCount => none

/-- The evaluation keeps to the guard. -/
def Tick.Guards (t : Tick) (previous : State) : Prop :=
  (t.updateChannel true previous).Spec (Request.Commands fun _ => False) fun after => ∀ s ∈ after,
    s.rest.capacityLimited = true → (t.evaluateOwned s).Spec (Request.Commands Change.Guarded) fun _ => True

theorem Tick.not_guards {t : Tick} {previous s : State} (turns : List (Dialogue.Turn Request Answer Unit))
    (hafter : ((t.updateChannel true previous).outcome (fun _ _ => ()) (fun _ _ a => (a, ())) () turns).1 = some (some s))
    (hlimited : s.rest.capacityLimited = true)
    (hasked : .change ⟨.circuitOpened, 0, none, -5, 0⟩ ∈
      (t.evaluateOwned s).asked (fun _ _ => ()) (fun _ _ a => (a, ())) () turns) : ¬t.Guards previous := by
  intro h
  have hguarded := (h.run () turns).2 _ hafter s rfl hlimited
  exact absurd ((hguarded.run () turns).1 _ hasked).lowers (by decide)

/-- The zero of an opening circuit is above a negative weight, wherever it comes from: the
snapshot, the last write, the tracker or its pending command. -/
theorem opening_raises_negative :
    ¬(tripping (-5)).Guards (holding none {}) ∧ ¬(tripping 10).Guards (holding (some (-5)) {}) ∧
      ¬(tripping 10).Guards (holding none {initialized := true, confirmedWeight := -5, pendingCommandID := "c"}) ∧
      ¬(tripping 10).Guards (holding none {initialized := true, pendingWeight := -5, pendingCommandID := "c"}) :=
  ⟨Tick.not_guards [replying .pending, replying .pending] rfl (by decide +kernel) (.tail _ (.head _)),
    Tick.not_guards [replying .pending, replying .pending] rfl (by decide +kernel) (.tail _ (.head _)),
    Tick.not_guards [replying .pending, replying .pending] rfl (by decide +kernel) (.tail _ (.head _)),
    Tick.not_guards [replying .succeeded, replying .pending] rfl (by decide +kernel) (.tail _ (.head _))⟩

end ControlTower.Dispatch
