import ControlTower.Dispatch.State

/-! The capacity control of a channel with an RPM or TPM limit.

Each evaluation hands `updateCapacity` the rates that the agents cover up to a
cutoff. Reaching a limit latches the channel: its weight may not grow. A sustained
overload lowers the weight, and the latch is released once the load has stayed low
for long enough after the last confirmed write. -/
namespace ControlTower.Dispatch
open Go Tuning CapacityControl

variable (b : BaseValue)

def BaseValue.capacityConfigured : Bool := decide (0 < b.maxRPM) || decide (0 < b.maxTPM)

def capacityUtilization (rpm tpm : Rat) : Rat :=
  let u := if 0 < b.maxRPM then nearestDouble (rpm / float64 b.maxRPM) else 0
  if 0 < b.maxTPM then max u (nearestDouble (tpm / float64 b.maxTPM)) else u

/-- The target of a reduction, before and after the bound on one decrease. -/
def CapacityRules.capacityTarget (r : CapacityRules) (weight : Int) (utilization maxDecreasePercent : Rat) :
    Int × Int :=
  if weight ≤ r.minWeight ∨ utilization < 1 then (weight, weight) else
  let raw := max r.minWeight
    (nearestDouble (nearestDouble (float64 weight * r.targetUtilization) / utilization)).floor
  -- At least one unit, so that a small weight can still decrease.
  let decrease := max 1
    (nearestDouble (nearestDouble (float64 weight * maxDecreasePercent) / 100)).floor
  (raw, max (max raw (weight - decrease)) r.minWeight)

/-! ### What a call does to the control -/

namespace CapacityControl

def noteFirst (c : CapacityControl) (weight : Int) : CapacityControl :=
  if c.initialized then c else {c with initialized := true, confirmedWeight := weight}

/-- Other limits start from nothing. -/
def noteLimits (c : CapacityControl) (b : BaseValue) : CapacityControl :=
  if c.maxRPM ≠ b.maxRPM ∨ c.maxTPM ≠ b.maxTPM then
    {c with
      active := false, overSince := Time.zero, underSince := Time.zero
      maxRPM := b.maxRPM, maxTPM := b.maxTPM}
  else c

/-- A newly confirmed external write or circuit transition invalidates the old
traffic response. -/
def noteWeight (c : CapacityControl) (weight : Int) (now : Time) : CapacityControl :=
  if c.pendingCommandID = "" ∧ weight ≠ c.confirmedWeight then
    {c with confirmedWeight := weight, appliedAt := now, underSince := Time.zero}
  else c

/-- The control once the channel's own values are noted, before any evidence. -/
def prepared (c : CapacityControl) (b : BaseValue) (weight : Int) (now : Time) : CapacityControl :=
  let c := ((c.noteFirst weight).noteLimits b).noteWeight weight now
  {c with boundWeight := c.confirmedWeight, rawTarget := c.confirmedWeight, reason := ""}

def freshAt (c : CapacityControl) (r : CapacityRules) (asOf now : Time) (available : Bool) : Bool :=
  available && !asOf.isZero && decide (asOf ≤ now) && decide (now - asOf ≤ Time.seconds r.maxAgeSeconds) &&
    decide (c.sampleAt ≤ asOf)

def stale (c : CapacityControl) : CapacityControl :=
  {c with fresh := false, overSince := Time.zero, underSince := Time.zero, phase := .unavailable}

/-- The increase guard latches on the first crossing. -/
def measured (c : CapacityControl) (u : Rat) : CapacityControl :=
  {c with fresh := true, utilization := u, active := c.active || decide (1 ≤ u)}

def feedbackReady (c : CapacityControl) (r : CapacityRules) (asOf : Time) : Bool :=
  c.appliedAt.isZero || decide (c.appliedAt ≤ asOf - Time.seconds r.feedbackSeconds)

/-- A sample too far from the last one confirms nothing. -/
def noteGap (c : CapacityControl) (r : CapacityRules) (asOf : Time) : CapacityControl :=
  if !c.sampleAt.isZero ∧ Time.seconds r.sampleGapSeconds < asOf - c.sampleAt then
    {c with overSince := Time.zero, underSince := Time.zero}
  else c

def noteOver (c : CapacityControl) (asOf : Time) : CapacityControl :=
  {c with overSince :=
    if 1 ≤ c.utilization then (if c.overSince.isZero then asOf else c.overSince) else Time.zero}

def noteUnder (c : CapacityControl) (r : CapacityRules) (asOf : Time) : CapacityControl :=
  if c.active ∧ c.utilization < r.releaseUtilization ∧ c.feedbackReady r asOf ∧ c.pendingCommandID = "" then
    let since := if c.underSince.isZero then asOf else c.underSince
    {c with
      underSince := since
      active := !decide (Time.seconds r.recoverySeconds ≤ asOf - since)}
  else {c with underSince := Time.zero}

/-- A new sample moves the clocks; one already seen moves nothing. -/
def sampled (c : CapacityControl) (r : CapacityRules) (asOf : Time) : CapacityControl :=
  if c.sampleAt < asOf then
    ({c.noteGap r asOf with sampleAt := asOf}.noteOver asOf).noteUnder r asOf
  else c

def phaseAt (c : CapacityControl) (r : CapacityRules) (asOf : Time) : CapacityPhase :=
  if c.pendingCommandID ≠ "" then .awaitingWrite else
  if c.active ∧ !c.feedbackReady r asOf then .waitingFeedback else
  if c.active ∧ !c.underSince.isZero then .recovering else
  if c.active ∧ c.utilization < 1 then .holding else
  if 1 ≤ c.utilization ∧ (c.overSince.isZero ∨ asOf - c.overSince < Time.seconds r.overloadSeconds) then
    .observing else
  if 1 ≤ c.utilization ∧ c.confirmedWeight ≤ r.minWeight then .minimumWeight else
  if 1 ≤ c.utilization then .reducing else .normal

def aimed (c : CapacityControl) (r : CapacityRules) (maxDecreasePercent : Rat) : CapacityControl :=
  if c.phase = .reducing then
    let target := r.capacityTarget c.confirmedWeight c.utilization maxDecreasePercent
    {c with rawTarget := target.1, boundWeight := target.2}
  else c

/-- The control of a channel that has no limit keeps track of commands only. -/
def uncapped (c : CapacityControl) (weight : Int) : CapacityControl :=
  let c : CapacityControl := {c with
    active := false, fresh := true, maxRPM := 0, maxTPM := 0
    overSince := Time.zero, underSince := Time.zero, reason := "", phase := .normal}
  if c.pendingCommandID ≠ "" then {c with phase := .awaitingWrite} else
  if c.initialized then {c with confirmedWeight := weight} else c

/-! ### What the steps leave -/

variable {c : CapacityControl} {r : CapacityRules} {b : BaseValue} {weight : Int} {asOf now : Time}

theorem aimed_eq (c : CapacityControl) (r : CapacityRules) (maxDecreasePercent : Rat) :
    ∃ raw bound, c.aimed r maxDecreasePercent = {c with rawTarget := raw, boundWeight := bound} := by
  unfold aimed
  split
  · exact ⟨_, _, rfl⟩
  · exact ⟨c.rawTarget, c.boundWeight, rfl⟩

@[simp] theorem prepared_sampleAt : (c.prepared b weight now).sampleAt = c.sampleAt := by
  simp only [prepared, noteWeight, noteLimits, noteFirst]
  split_ifs <;> rfl

@[simp] theorem prepared_pendingCommandID :
    (c.prepared b weight now).pendingCommandID = c.pendingCommandID := by
  simp only [prepared, noteWeight, noteLimits, noteFirst]
  split_ifs <;> rfl

@[simp] theorem prepared_pendingWeight : (c.prepared b weight now).pendingWeight = c.pendingWeight := by
  simp only [prepared, noteWeight, noteLimits, noteFirst]
  split_ifs <;> rfl

/-- Unless a command is on its way, the confirmed weight is the one found. -/
theorem prepared_confirmedWeight (c : CapacityControl) (b : BaseValue) (weight : Int) (now : Time) :
    (c.prepared b weight now).confirmedWeight = c.confirmedWeight ∧ c.pendingCommandID ≠ "" ∨
      (c.prepared b weight now).confirmedWeight = weight := by
  simp only [prepared, noteWeight, noteLimits, noteFirst]
  split_ifs <;> grind

@[simp] theorem prepared_initialized : (c.prepared b weight now).initialized = true := by
  simp only [prepared, noteWeight, noteLimits, noteFirst]
  split_ifs <;> simp_all

@[simp] theorem prepared_limits :
    (c.prepared b weight now).maxRPM = b.maxRPM ∧ (c.prepared b weight now).maxTPM = b.maxTPM := by
  simp only [prepared, noteWeight, noteLimits, noteFirst]
  split_ifs <;> simp_all

@[simp] theorem prepared_freshAt (available : Bool) :
    (c.prepared b weight now).freshAt r asOf now available = c.freshAt r asOf now available := by
  simp [freshAt]

theorem prepared_of_limits (hrpm : c.maxRPM = b.maxRPM) (htpm : c.maxTPM = b.maxTPM) :
    (c.prepared b weight now).active = c.active ∧ (c.prepared b weight now).overSince = c.overSince := by
  simp only [prepared, noteWeight, noteLimits, noteFirst]
  split_ifs <;> simp_all

/-- A running release clock was running before, at the same weight. -/
theorem prepared_underSince (h : (c.prepared b weight now).underSince.isZero = false) :
    (c.prepared b weight now).underSince = c.underSince ∧ (c.initialized = true →
      (c.prepared b weight now).confirmedWeight = c.confirmedWeight ∧
        (c.prepared b weight now).appliedAt = c.appliedAt) := by
  revert h
  simp only [prepared, noteWeight, noteLimits, noteFirst]
  split_ifs <;> simp_all [Time.isZero]

theorem prepared_overSince (h : (c.prepared b weight now).overSince.isZero = false) :
    (c.prepared b weight now).overSince = c.overSince := by
  revert h
  simp only [prepared, noteWeight, noteLimits, noteFirst]
  split_ifs <;> simp_all [Time.isZero]

/-! The same for what a sample does. -/

theorem sampled_eq (c : CapacityControl) (r : CapacityRules) (asOf : Time) :
    ∃ active sampleAt overSince underSince, c.sampled r asOf =
      {c with active := active, sampleAt := sampleAt, overSince := overSince, underSince := underSince} := by
  simp only [sampled, noteUnder, noteOver, noteGap]
  split_ifs <;> exact ⟨_, _, _, _, rfl⟩

theorem sampled_of_le (h : asOf ≤ c.sampleAt) : c.sampled r asOf = c := by
  simp [sampled, Int.not_lt.mpr h]

theorem sampled_sampleAt (h : c.sampleAt < asOf) : (c.sampled r asOf).sampleAt = asOf := by
  simp only [sampled, h, if_true, noteUnder, noteOver]
  split_ifs <;> rfl

/-- The sample comes soon enough after the last one. -/
def InTime (c : CapacityControl) (r : CapacityRules) (asOf : Time) : Prop :=
  c.sampleAt.isZero = false → asOf - c.sampleAt ≤ Time.seconds r.sampleGapSeconds

theorem noteGap_cases (c : CapacityControl) (r : CapacityRules) (asOf : Time) :
    c.InTime r asOf ∧ c.noteGap r asOf = c ∨
      c.noteGap r asOf = {c with overSince := Time.zero, underSince := Time.zero} := by
  unfold noteGap
  split_ifs with hgap
  · exact .inr rfl
  · refine .inl ⟨fun hz => ?_, rfl⟩
    simp only [hz, Bool.not_false, true_and, Int.not_lt] at hgap
    exact hgap

theorem noteUnder_overSince : (c.noteUnder r asOf).overSince = c.overSince := by
  unfold noteUnder
  split_ifs <;> rfl

theorem noteUnder_underSince (h : (c.noteUnder r asOf).underSince.isZero = false) :
    c.utilization < r.releaseUtilization ∧ c.feedbackReady r asOf = true ∧ c.pendingCommandID = "" ∧
      ((c.noteUnder r asOf).underSince = asOf ∨
        (c.noteUnder r asOf).underSince = c.underSince ∧ c.underSince.isZero = false) := by
  by_cases hlow : c.active ∧ c.utilization < r.releaseUtilization ∧ c.feedbackReady r asOf ∧
      c.pendingCommandID = ""
  · refine ⟨hlow.2.1, hlow.2.2.1, hlow.2.2.2, ?_⟩
    simp only [noteUnder, hlow, and_self, if_true]
    cases hz : c.underSince.isZero <;> simp
  · simp [noteUnder, hlow, Time.isZero] at h

theorem noteUnder_released (hzero : asOf.isZero = false) (hactive : c.active = true)
    (h : (c.noteUnder r asOf).active = false) :
    (c.noteUnder r asOf).underSince.isZero = false ∧
      Time.seconds r.recoverySeconds ≤ asOf - (c.noteUnder r asOf).underSince := by
  by_cases hlow : c.active ∧ c.utilization < r.releaseUtilization ∧ c.feedbackReady r asOf ∧
      c.pendingCommandID = ""
  · simp only [noteUnder, hlow, and_self, if_true, Bool.not_eq_false', decide_eq_true_eq] at h ⊢
    cases hz : c.underSince.isZero <;> simp_all
  · rw [noteUnder, if_neg hlow] at h
    simp [hactive] at h

theorem noteOver_overSince (h : (c.noteOver asOf).overSince.isZero = false) :
    1 ≤ c.utilization ∧ ((c.noteOver asOf).overSince = asOf ∨
      (c.noteOver asOf).overSince = c.overSince ∧ c.overSince.isZero = false) := by
  by_cases hhigh : 1 ≤ c.utilization
  · refine ⟨hhigh, ?_⟩
    simp only [noteOver, hhigh, if_true]
    cases hz : c.overSince.isZero <;> simp
  · simp [noteOver, hhigh, Time.isZero] at h

/-- A clock that a sample leaves running starts with it, or goes on from before. -/
def Continues (c : CapacityControl) (r : CapacityRules) (asOf since before : Time) : Prop :=
  since = asOf ∨ since = before ∧ before.isZero = false ∧ c.InTime r asOf

theorem sampled_underSince (hnew : c.sampleAt < asOf)
    (h : (c.sampled r asOf).underSince.isZero = false) :
    c.utilization < r.releaseUtilization ∧ c.feedbackReady r asOf = true ∧ c.pendingCommandID = "" ∧
      c.Continues r asOf (c.sampled r asOf).underSince c.underSince := by
  simp only [sampled, hnew, if_true] at h ⊢
  have hunder := noteUnder_underSince h
  rcases noteGap_cases c r asOf with ⟨htime, hgap⟩ | hgap <;> rw [hgap] at hunder ⊢ <;>
    obtain ⟨hlow, hready, hpending, hsince | ⟨hsince, hz⟩⟩ := hunder
  · exact ⟨hlow, hready, hpending, .inl hsince⟩
  · exact ⟨hlow, hready, hpending, .inr ⟨hsince, hz, htime⟩⟩
  · exact ⟨hlow, hready, hpending, .inl hsince⟩
  · exact absurd hz (by simp [noteOver, Time.isZero])

theorem sampled_overSince (hnew : c.sampleAt < asOf)
    (h : (c.sampled r asOf).overSince.isZero = false) :
    1 ≤ c.utilization ∧ c.Continues r asOf (c.sampled r asOf).overSince c.overSince := by
  simp only [sampled, hnew, if_true, noteUnder_overSince] at h ⊢
  have hover := noteOver_overSince h
  rcases noteGap_cases c r asOf with ⟨htime, hgap⟩ | hgap <;> rw [hgap] at hover ⊢ <;>
    obtain ⟨hhigh, hsince | ⟨hsince, hz⟩⟩ := hover
  · exact ⟨hhigh, .inl hsince⟩
  · exact ⟨hhigh, .inr ⟨hsince, hz, htime⟩⟩
  · exact ⟨hhigh, .inl hsince⟩
  · exact absurd hz (by simp [Time.isZero])

/-- The latch is released by a sample only, once the release clock has run its time. -/
theorem sampled_released (hzero : asOf.isZero = false) (hactive : c.active = true)
    (h : (c.sampled r asOf).active = false) :
    c.sampleAt < asOf ∧ (c.sampled r asOf).underSince.isZero = false ∧
      Time.seconds r.recoverySeconds ≤ asOf - (c.sampled r asOf).underSince := by
  by_cases hnew : c.sampleAt < asOf
  · have hlatched : (c.noteGap r asOf).active = true := by
      rcases noteGap_cases c r asOf with ⟨-, hgap⟩ | hgap <;> rw [hgap] <;> exact hactive
    simp only [sampled, hnew, if_true] at h ⊢
    exact ⟨trivial, noteUnder_released hzero hlatched h⟩
  · simp [sampled, hnew, hactive] at h

end CapacityControl

/-! ### The functions of the source -/

def updateCapacity (r : CapacityRules) (b : BaseValue) (s : State) (asOf now : Time) (available : Bool)
    (maxDecreasePercent : Rat) : State :=
  if !b.capacityConfigured then
    {s with rest := {s.rest with
      capacity := s.rest.capacity.uncapped (effectiveCurrentWeight b s)
      capacityLimited := decide (s.rest.capacity.pendingCommandID ≠ "")}}
  else
  let c := s.rest.capacity.prepared b (effectiveCurrentWeight b s) now
  if !c.freshAt r asOf now available then
    {s with rest := {s.rest with capacity := c.stale, capacityLimited := true}}
  else
  let c := (c.measured (capacityUtilization b s.rest.metricRPM s.rest.metricTPM)).sampled r asOf
  {s with rest := {s.rest with
    capacity := {c with phase := c.phaseAt r asOf}.aimed r maxDecreasePercent
    capacityLimited := c.active || decide (1 ≤ c.utilization) || decide (c.pendingCommandID ≠ "")}}

/-- Everything but the capacity and its flag is left as it was. The confirmed weight
is the one that the channel carries, unless a command is on its way. -/
theorem updateCapacity_eq (r : CapacityRules) (b : BaseValue) (s : State) (asOf now : Time) (available : Bool)
    (percent : Rat) :
    ∃ c limited, updateCapacity r b s asOf now available percent =
        {s with rest := {s.rest with capacity := c, capacityLimited := limited}} ∧
      c.pendingCommandID = s.rest.capacity.pendingCommandID ∧
      c.pendingWeight = s.rest.capacity.pendingWeight ∧
      (c.confirmedWeight = s.rest.capacity.confirmedWeight ∧
          (b.capacityConfigured = true → s.rest.capacity.pendingCommandID ≠ "") ∨
        c.confirmedWeight = effectiveCurrentWeight b s) := by
  have hweight := prepared_confirmedWeight s.rest.capacity b
    (effectiveCurrentWeight b s) now
  have hkept := hweight.imp_left fun h =>
    (⟨h.1, fun _ => h.2⟩ : _ ∧ (b.capacityConfigured = true → s.rest.capacity.pendingCommandID ≠ ""))
  simp only [updateCapacity]
  split_ifs with hconf
  · refine ⟨_, _, rfl, ?_⟩
    simp only [uncapped]
    split_ifs <;> simp_all
  · exact ⟨_, _, rfl, prepared_pendingCommandID, prepared_pendingWeight, hkept⟩
  · obtain ⟨active, sampleAt, overSince, underSince, hsampled⟩ := sampled_eq
      ((s.rest.capacity.prepared b (effectiveCurrentWeight b s) now).measured
        (capacityUtilization b s.rest.metricRPM s.rest.metricTPM)) r asOf
    rw [hsampled]
    obtain ⟨raw, bound, haimed⟩ := aimed_eq
      {(s.rest.capacity.prepared b (effectiveCurrentWeight b s) now).measured
        (capacityUtilization b s.rest.metricRPM s.rest.metricTPM) with
        active := active, sampleAt := sampleAt, overSince := overSince, underSince := underSince
        phase := phaseAt _ r asOf} r percent
    refine ⟨_, _, rfl, ?_⟩
    rw [haimed]
    exact ⟨prepared_pendingCommandID, prepared_pendingWeight, hkept⟩

def confirmCapacityWrite (silentMinutes : Int) (s : State) (weight : Int) (appliedAt : Time) : State :=
  let c := s.rest.capacity
  let opened : Bool := s.rest.phase = .circuit ∧ weight = 0
  {s with
    lastWriteAt := some appliedAt
    rest := {s.rest with
      lastWrittenWeight := some weight
      circuitOpenedAt := if opened then some appliedAt else s.rest.circuitOpenedAt
      nextProbeAt := if opened then some (appliedAt + Time.minutes silentMinutes) else s.rest.nextProbeAt
      capacityLimited := c.active || !c.fresh
      capacity := {c with
        confirmedWeight := weight, appliedAt := appliedAt, pendingCommandID := "", underSince := Time.zero
        phase := if !c.fresh then .unavailable else if c.active then .waitingFeedback else .normal}}}

variable (s : State)

/-- The first half of `createTrackedWeightChange`: the tracker starts with the first
write. -/
def trackWrites : State :=
  let c := s.rest.capacity
  if c.initialized then s else
  {s with rest := {s.rest with capacity := {c with
    initialized := true, confirmedWeight := effectiveCurrentWeight b s
    maxRPM := b.maxRPM, maxTPM := b.maxTPM, fresh := c.fresh || !b.capacityConfigured}}}

/-- A tracked command is on its way. -/
def awaitWrite (id : String) (weight : Int) : State :=
  {s with rest := {s.rest with
    capacityLimited := true
    capacity := {s.rest.capacity with
      pendingCommandID := id, pendingWeight := weight, phase := .awaitingWrite}}}

/-- A command that ended without being applied is no longer awaited. -/
def forgetWrite : State :=
  {s with rest := {s.rest with capacity := {s.rest.capacity with pendingCommandID := ""}}}

/-- The target of a pending write is shown, a limit bounds the proposal; and whether
this lowered it. -/
def applyCapacityTarget : State × Bool :=
  let c := s.rest.capacity
  if c.pendingCommandID ≠ "" then ({s with rest := {s.rest with proposedWeight := c.pendingWeight}}, false) else
  if !s.rest.capacityLimited then (s, false) else
  let bound := if c.phase = .reducing then c.boundWeight else c.confirmedWeight
  let proposed := min s.rest.proposedWeight bound
  ({s with rest := {s.rest with proposedWeight := proposed}},
    decide (c.phase = .reducing) && decide (proposed < s.rest.proposedWeight))

def capacityRecoveryBlocked : Bool :=
  decide (s.rest.capacity.pendingCommandID ≠ "") || b.capacityConfigured && s.rest.capacityLimited

end ControlTower.Dispatch
