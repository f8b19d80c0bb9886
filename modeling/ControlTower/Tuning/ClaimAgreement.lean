import Mathlib.Logic.Function.Basic
import ControlTower.Tuning.CommandGate

/-! When a queued command survives its claim.

The queueing transaction and the claim check the same stored state, up to the
markers of the command itself. They disagree in three ways. The claim's second
check of a status command does not reload the evidence, so it takes the
recommendation's revision for zero; the schedule is asked at the time of the claim;
and the integers of the evidence come back through `float64`. Where none of the
three intervenes the command is delivered, and it is delivered nowhere else. -/
namespace ControlTower.Tuning
open Go List Recommendation

/-! ### The markers -/

/-- The row with the marker of a queued weight. -/
def Row.linked (r : Row Standing) (v : Recommendation) (commandID : String) : Row Standing :=
  {r with rest := {r.rest with capacity := {r.rest.capacity with
    pendingCommandID := commandID, pendingWeight := v.proposedWeight}}}

variable {p : Params} {t now : Time}

theorem Params.fresh_later {c : CapacityControl} (h : p.fresh c t = true)
    (ht : t ≤ now) (hage : p.withinAge now c.sampleAt = true) : p.fresh c now = true := by
  simp only [Params.fresh, Bool.and_eq_true, Bool.not_eq_true', decide_eq_false_iff_not] at h ⊢
  obtain ⟨⟨⟨hf, hz⟩, hs⟩, -⟩ := h
  exact ⟨⟨⟨hf, hz⟩, fun h => hs (Int.lt_of_le_of_lt ht h)⟩, hage⟩

variable {r : Row Standing} {v : Recommendation} {commandID : String}

/-- What holds an increase back does not start to because the command is marked. -/
theorem held_linked {f f' : Bool} (h : held r f "" = false) (hf : f = true → f' = true) :
    held (r.linked v commandID) f' commandID = false := by
  simp only [held, Row.linked, Bool.or_eq_false_iff, Bool.not_eq_false', beq_self_eq_true,
    Bool.true_or, Bool.and_true, bne_self_eq_false, Bool.or_false] at h ⊢
  obtain ⟨⟨⟨hl, ha⟩, hu⟩, hfresh⟩ := h
  exact ⟨⟨⟨by simp [hl], ha⟩, hu⟩, hf hfresh⟩

variable {b : BaseValue}

theorem checkWeight_linked {v v' : Recommendation} (h : checkWeight b r p v t "" = .ok ())
    (hrule : v'.rule = v.rule) (hweight : v'.proposedWeight = v.proposedWeight)
    (hid : commandID ≠ "") (ht : t ≤ now)
    (hage : b.unlimited = false → p.withinAge now r.rest.capacity.sampleAt = true) :
    checkWeight b (r.linked v commandID) p v' now commandID = .ok () := by
  have hfresh : (b.unlimited || p.fresh r.rest.capacity t) = true →
      (b.unlimited || p.fresh (r.linked v commandID).rest.capacity now) = true := by
    intro hf
    cases hu : b.unlimited with
    | true => rfl
    | false =>
      rw [hu, Bool.false_or] at hf
      exact Params.fresh_later (c := (r.linked v commandID).rest.capacity) hf ht (hage hu)
  simp only [checkWeight, hrule, hweight] at h ⊢
  by_cases hr : v.rule = .circuitRecovered
  · simp only [hr, if_true, refuse_eq_ok, Bool.or_eq_false_iff] at h ⊢
    exact ⟨held_linked h.1 hfresh, by simp [Row.linked]⟩
  · simp only [hr, if_false, bind_eq_ok, refuse_eq_ok, exists_const, beq_self_eq_true, if_true] at h ⊢
    obtain ⟨hc, -, hinc, hred⟩ := h
    refine ⟨hc, by simp [Row.linked, hid], ?_, ?_⟩
    · rw [Bool.and_eq_false_iff] at hinc ⊢
      exact hinc.imp id fun hheld => held_linked hheld hfresh
    · rw [Bool.and_eq_false_iff] at hred ⊢
      refine hred.imp id fun hred => ?_
      simp only [Bool.or_eq_false_iff, Bool.not_eq_false'] at hred ⊢
      obtain ⟨⟨⟨⟨⟨⟨hf, ha⟩, hu⟩, hn⟩, hg⟩, hm⟩, hc⟩ := hred
      exact ⟨⟨⟨⟨⟨⟨hfresh hf, ha⟩, hu⟩, hn⟩, hg⟩, hm⟩, hc⟩

/-! ### The evidence read back -/

theorem EvaluationContext.reload_evaluatedAt {e e' : EvaluationContext} (h : e.reload = some e') :
    e'.evaluatedAt = e.evaluatedAt := by
  simp only [EvaluationContext.reload, Option.bind_eq_bind, Option.bind_eq_some_iff,
    Option.pure_def, Option.some.injEq] at h
  obtain ⟨_, _, _, _, rfl⟩ := h
  rfl

variable {policy : Policy}

/-- Two evaluations of the stored base value and policy differ in their time only. -/
theorem EvaluationContext.current_unique {e e' : EvaluationContext}
    (h : e.current b policy = true) (h' : e'.current b policy = true)
    (hat : e'.evaluatedAt = e.evaluatedAt) : e' = e := by
  simp only [EvaluationContext.current, Bool.and_eq_true, beq_iff_eq] at h h'
  cases e
  cases e'
  simp_all

theorem Evidence.reload_evaluation {e : Evidence} {ev : EvaluationContext}
    (h : e.evaluation = .ok (some ev)) (d : Option EvaluationContext) :
    e.reload.evaluation = .ok d ↔ ∃ ev', ev.reload = some ev' ∧ d = some ev' := by
  simp only [Evidence.reload, h, bind_eq_ok, Except.ok.injEq, exists_eq_left']
  cases hr : ev.reload <;> simp [found, eq_comm]

/-- The evaluation reads back as it was written. -/
def Evidence.EvaluationSurvives (e : Evidence) : Prop := e.reload.evaluation = e.evaluation

/-- The capacity state reads back with its limits as they were written. -/
def Evidence.LimitsSurvive (e : Evidence) : Prop :=
  (e.reload.capacity.map fun c => (c.maxRPM, c.maxTPM)) = e.capacity.map fun c => (c.maxRPM, c.maxTPM)

theorem Evidence.limitsSurvive_iff {e : Evidence} {c : CapacityControl} (h : e.capacity = .ok c) :
    e.LimitsSurvive ↔ ∃ d, e.reload.capacity = .ok d ∧ d.maxRPM = c.maxRPM ∧ d.maxTPM = c.maxTPM := by
  unfold Evidence.LimitsSurvive
  cases hd : e.reload.capacity <;> simp [h, Except.map]

/-- The recommendation as the claim's first check has it. -/
def Recommendation.reload (v : Recommendation) : Recommendation := {v with evidence := v.evidence.reload}

theorem reloaded_queued (commandID instanceID : String) (channelID : Int) (v : Recommendation) :
    (⟨commandID, instanceID, channelID, v.proposedChannelStatus, v⟩ : Command).reloaded = v.reload := rfl

/-! ### The two capacity checks -/

variable {ch : StoredChannel} {now : Time}

theorem checkDecision_evaluation (h : ch.checkDecision b r policy v now commandID = .ok ()) :
    ∃ e, v.evidence.evaluation = .ok (some e) ∧ e.current b policy = true := by
  simp only [StoredChannel.checkDecision, bind_eq_ok, found_eq_ok, refuse_eq_ok, exists_const,
    Bool.or_eq_false_iff, Bool.not_eq_false'] at h
  obtain ⟨_, -, -, -, _, hd, e, rfl, hcur, -⟩ := h
  exact ⟨e, hd, hcur.1⟩

variable {r r' : Row Standing}

/-- Both evaluations are of the stored base value and policy, so they are the same. -/
theorem evaluationSurvives_of_checkDecision {ch ch' : StoredChannel}
    (h : ch.checkDecision b r policy v t "" = .ok ())
    (h' : ch'.checkDecision b r' policy v.reload now commandID = .ok ()) :
    v.evidence.EvaluationSurvives := by
  obtain ⟨e, he, hcur⟩ := checkDecision_evaluation h
  obtain ⟨e', he', hcur'⟩ := checkDecision_evaluation h'
  obtain ⟨_, hr, ⟨⟩⟩ := (Evidence.reload_evaluation he _).mp he'
  have heq := EvaluationContext.current_unique hcur hcur' (EvaluationContext.reload_evaluatedAt hr)
  exact he'.trans (heq ▸ he.symm)

/-- A decision that passed when it was queued, and whose evaluation reads back, passes
again exactly when its limits read back too. -/
theorem checkDecision_reload_iff {ch ch' : StoredChannel}
    (h : ch.checkDecision b r policy v t "" = .ok ()) (hch : ch'.snapshot = ch.snapshot)
    (hsame : v.evidence.EvaluationSurvives) (hid : commandID ≠ "") (ht : t ≤ now)
    (hage : b.unlimited = false → policy.continuous.withinAge now r.rest.capacity.sampleAt = true) :
    ch'.checkDecision b (r.linked v commandID) policy v.reload now commandID = .ok () ↔
      (v.rule ≠ .circuitOpened → v.evidence.LimitsSurvive) := by
  simp only [StoredChannel.checkDecision, bind_eq_ok, found_eq_ok, refuse_eq_ok, exists_const] at h
  obtain ⟨snapshot, hs, hm, he, _, hd, evaluation, rfl, hcur, htime, hrest⟩ := h
  have hd' : v.reload.evidence.evaluation = .ok (some evaluation) := hsame.trans hd
  simp only [StoredChannel.checkDecision, bind_eq_ok, found_eq_ok, refuse_eq_ok, exists_const, hch,
    hs, Option.some.injEq, exists_eq_left', hm, he, hd', Except.ok.injEq, true_and]
  refine (and_iff_right hcur).trans ((and_iff_right htime).trans ?_)
  by_cases ho : v.rule = .circuitOpened
  · rw [if_pos ho, refuse_eq_ok, Bool.or_eq_false_iff] at hrest
    simp [reload, Row.linked, ho, hrest.1]
  · rw [if_neg ho] at hrest
    simp only [bind_eq_ok, refuse_eq_ok, exists_const, Bool.or_eq_false_iff, bne_eq_false_iff_eq] at hrest
    obtain ⟨decision, hc, hlimits, hw⟩ := hrest
    have hweight : checkWeight b (r.linked v commandID) policy.continuous v.reload now commandID =
        .ok () := checkWeight_linked hw rfl rfl hid ht hage
    rw [if_neg (show v.reload.rule ≠ .circuitOpened from ho), Evidence.limitsSurvive_iff hc]
    simp only [bind_eq_ok, refuse_eq_ok, exists_const, hweight, and_true, ne_eq, ho,
      not_false_eq_true, forall_const, hlimits.1, hlimits.2]
    simp [reload]

/-- No enabled schedule keeps the channel closed. -/
def StoredChannel.opensAt (ch : StoredChannel) (now : Time) : Prop :=
  (ch.schedule.any fun s => s.enabled && !s.allowed now) = false

theorem checkScheduleRecovery_iff {e : GateErr} {closed : Bool} :
    ch.checkScheduleRecovery e now = .ok closed ↔
      ch.opensAt now ∧ ch.schedule.any (·.closed) = closed := by
  simp only [StoredChannel.checkScheduleRecovery, StoredChannel.opensAt, bind_eq_ok, refuse_eq_ok,
    pure_eq_ok, exists_const]

/-- What `checkContinuousCapacity` asks of every change that it is about. -/
structure Admitted (b : BaseValue) (r : Row Standing) (policy : Policy) (v : Recommendation) : Prop where
  tracked : v.capacityManaged = true ∨ v.statusRecovery = true
  weight : 0 < b.weight
  model : r.modelName = b.model
  unpaused : r.pausedReason ≠ .other "mixed_channel" ∧ r.pausedReason ≠ .manualDisabled
  unlatched : r.rest.routineCircuitLatched = true → v.statusRecovery = true ∨ v.rule = .circuitOpened
  mode : policy.dispatchMode b.model = some .auto

theorem joined_eq_some : ch.joined = some (b, r) ↔ ch.base = some b ∧ ch.row = some r := by
  cases hb : ch.base <;> cases hr : ch.row <;> simp [StoredChannel.joined, hb, hr]

theorem checkTracked_iff :
    ch.checkTracked v now commandID = .ok () ↔ ∃ b r policy, ch.base = some b ∧ ch.row = some r ∧
      ch.policy = some policy ∧ Admitted b r policy v ∧
      (if v.statusRecovery then checkEnabling b r policy.continuous now
        else ch.checkDecision b r policy v now commandID) = .ok () := by
  simp only [StoredChannel.checkTracked, bind_eq_ok, refuse_eq_ok, found_eq_ok, exists_const,
    Prod.exists, joined_eq_some, Bool.or_eq_false_iff, Bool.and_eq_false_iff, Bool.not_eq_false',
    decide_eq_false_iff_not, not_le, bne_eq_false_iff_eq, beq_eq_false_iff_ne]
  constructor
  · rintro ⟨ht, b, r, ⟨hb, hr⟩, ⟨⟨⟨hw, hm⟩, hx⟩, hd⟩, hl, policy, hp, hmode, hrest⟩
    exact ⟨b, r, policy, hb, hr, hp, ⟨ht, hw, hm, ⟨hx, hd⟩, by grind, hmode⟩, hrest⟩
  · rintro ⟨b, r, policy, hb, hr, hp, ha, hrest⟩
    exact ⟨ha.tracked, b, r, ⟨hb, hr⟩, ⟨⟨⟨ha.weight, ha.model⟩, ha.unpaused.1⟩, ha.unpaused.2⟩,
      by have := ha.unlatched; grind, policy, hp, ha.mode, hrest⟩

theorem checkContinuousCapacity_iff
    (h : v.exempt = false) : ch.checkContinuousCapacity v now commandID = .ok () ↔
      (v.rule = .circuitRecovered → ch.opensAt now) ∧ ch.checkTracked v now commandID = .ok () := by
  simp only [StoredChannel.checkContinuousCapacity, h, Bool.false_eq_true, if_false]
  by_cases hr : v.rule = .circuitRecovered <;> simp [hr, checkScheduleRecovery_iff]

theorem statusRecovery_of_weight (hs : v.proposedChannelStatus = none) : v.statusRecovery = false := by
  simp [statusRecovery, hs]

theorem exempt_of_weight (hs : v.proposedChannelStatus = none)
    (hw : v.rule.writesWeight = true) : v.exempt = false := by
  simp [exempt, hs, hw]

/-- Where the channel has a limit, the sample is not older than the policy lets one be. -/
def StoredChannel.SampleCurrent (ch : StoredChannel) (now : Time) : Prop :=
  ∀ b r policy, ch.base = some b → ch.row = some r → ch.policy = some policy → b.unlimited = false →
    policy.continuous.withinAge now r.rest.capacity.sampleAt = true

theorem checkTracked_linked_iff (h : ch.checkTracked v t "" = .ok ())
    (hn : v.proposedChannelStatus = none) (hr : ch.row = some r) (hid : commandID ≠ "") (ht : t ≤ now)
    (hage : ch.SampleCurrent now) :
    ({ch with row := some (r.linked v commandID)} : StoredChannel).checkTracked v.reload now commandID =
      .ok () ↔ v.evidence.EvaluationSurvives ∧ (v.rule ≠ .circuitOpened → v.evidence.LimitsSurvive) := by
  obtain ⟨b, r', policy, hb, hr', hp, ha, hd⟩ := checkTracked_iff.mp h
  cases hr.symm.trans hr'
  have hs := statusRecovery_of_weight hn
  have hs' : v.reload.statusRecovery = false := hs
  rw [hs] at hd
  rw [checkTracked_iff, hs']
  have ha' : Admitted b (r.linked v commandID) policy v.reload :=
    ⟨ha.tracked, ha.weight, ha.model, ha.unpaused, ha.unlatched, ha.mode⟩
  constructor
  · rintro ⟨_, _, _, hb', ⟨⟩, hp', -, hd'⟩
    cases hb.symm.trans hb'
    cases hp.symm.trans hp'
    have hsame := evaluationSurvives_of_checkDecision hd hd'
    exact ⟨hsame, (checkDecision_reload_iff hd rfl hsame hid ht (hage b r policy hb hr hp)).mp hd'⟩
  · rintro ⟨hsame, hlimits⟩
    exact ⟨b, _, policy, hb, rfl, hp, ha',
      (checkDecision_reload_iff hd rfl hsame hid ht (hage b r policy hb hr hp)).mpr hlimits⟩

theorem checkEnabling_later
    (h : checkEnabling b r p t = .ok ()) (hc : r'.rest.capacity = r.rest.capacity)
    (hl : r'.rest.capacityLimited = r.rest.capacityLimited) (ht : t ≤ now)
    (hage : b.unlimited = false → p.withinAge now r.rest.capacity.sampleAt = true) :
    checkEnabling b r' p now = .ok () := by
  simp only [checkEnabling, refuse_eq_ok, Bool.and_eq_false_iff, Bool.or_eq_false_iff,
    Bool.not_eq_false'] at h ⊢
  rw [hc, hl]
  cases hu : b.unlimited with
  | true => exact .inl rfl
  | false =>
    have h := h.resolve_left (by simp [hu])
    exact .inr ⟨h.1, Params.fresh_later h.2 ht (hage hu)⟩

theorem checkTracked_marked {v v' : Recommendation}
    (h : ch.checkTracked v t "" = .ok ())
    (hs : v.statusRecovery = true) (hs' : v'.statusRecovery = true) (hr : ch.row = some r)
    (hmodel : r'.modelName = r.modelName) (hpaused : r'.pausedReason = r.pausedReason)
    (hc : r'.rest.capacity = r.rest.capacity)
    (hl : r'.rest.capacityLimited = r.rest.capacityLimited) (ht : t ≤ now)
    (hage : ch.SampleCurrent now) :
    ({ch with row := some r'} : StoredChannel).checkTracked v' now commandID = .ok () := by
  obtain ⟨b, _, policy, hb, hr', hp, ha, hd⟩ := checkTracked_iff.mp h
  cases hr.symm.trans hr'
  rw [hs, if_pos rfl] at hd
  refine checkTracked_iff.mpr ⟨b, r', policy, hb, rfl, hp, ⟨.inr hs', ha.weight, hmodel.trans ha.model,
    hpaused ▸ ha.unpaused, fun _ => .inl hs', ha.mode⟩, ?_⟩
  rw [hs', if_pos rfl]
  exact checkEnabling_later hd hc hl ht (hage b r policy hb hr hp)

/-! ### The two status checks -/

section StatusChecks
variable {softStart : Int → Rat → Int} {ch : StoredChannel} {r : Row Standing} {v : Recommendation} {target : Int} {commandID : String}

/-- The status check reads the revision and nothing else of the evidence. -/
theorem checkTarget_without_evidence_iff {closed : Bool}
    (h : ch.checkTarget softStart v target closed = .ok ()) (hr : ch.row = some r) :
    ({ch with row := some {r with
        circuitStatusTarget := target
        rest := {r.rest with circuitStatusCommandID := commandID}}} : StoredChannel).checkTarget softStart
      ⟨v.rule, v.modeAtCreation, 0, v.proposedWeight, some target, {}⟩ target closed = .ok () ↔
      r.controlRevision = 0 := by
  simp only [StoredChannel.checkTarget, bind_eq_ok, refuse_eq_ok, found_eq_ok, exists_const,
    Prod.exists, joined_eq_some] at h ⊢
  obtain ⟨hrule, b, r', ⟨hb, hr'⟩, hrow, policy, hp, hw, hmode, snapshot, hs, hmodels⟩ := h
  cases hr.symm.trans hr'
  simp only [Bool.or_eq_false_iff, bne_eq_false_iff_eq] at hrow
  obtain ⟨⟨⟨⟨⟨-, ho⟩, -⟩, hpos⟩, hm⟩, hweight⟩ := hrow
  constructor
  · rintro ⟨-, _, _, ⟨-, ⟨⟩⟩, hrow, -⟩
    simp only [Bool.or_eq_false_iff, bne_eq_false_iff_eq] at hrow
    exact hrow.1.1.1.1.1
  · intro h0
    refine ⟨hrule, b, _, ⟨hb, rfl⟩, ?_, policy, hp, hw, hmode, snapshot, hs, hmodels⟩
    simp [h0, ho, hpos, hm, hweight]

theorem checkTarget_spec {closed : Bool} (h : ch.checkTarget softStart v target closed = .ok ()) :
    (target = 1 ∧ v.rule = .circuitRecovered ∨ target = 2 ∧ v.rule = .circuitDisabled) ∧
      ∃ r, ch.row = some r ∧ r.controlRevision = v.evidence.controlRevision := by
  simp only [StoredChannel.checkTarget, bind_eq_ok, refuse_eq_ok, found_eq_ok, exists_const,
    Prod.exists, joined_eq_some, Bool.or_eq_false_iff, bne_eq_false_iff_eq] at h
  obtain ⟨⟨⟨⟨ht, h1⟩, h2⟩, -⟩, b, r, ⟨-, hr⟩, ⟨⟨⟨⟨⟨hrev, -⟩, -⟩, -⟩, -⟩, -⟩, -⟩ := h
  refine ⟨?_, r, hr, hrev⟩
  by_cases ht1 : target = 1
  · exact .inl ⟨ht1, by simpa [ht1] using h1⟩
  · have ht2 : target = 2 := by simpa [ht1] using ht
    exact .inr ⟨ht2, by simpa [ht2] using h2⟩

theorem checkCircuitStatus_some_iff {clock : Time} (hs : v.proposedChannelStatus = some target) :
    ch.checkCircuitStatus softStart v clock = .ok () ↔ (target = 1 → ch.opensAt clock) ∧
      ch.checkTarget softStart v target (target == 1 && ch.schedule.any (·.closed)) = .ok () := by
  by_cases ht : target = 1
  · simp [StoredChannel.checkCircuitStatus, hs, ht, checkScheduleRecovery_iff, and_assoc]
  · have hb : (target == 1) = false := by simpa using ht
    simp [StoredChannel.checkCircuitStatus, hs, ht, hb]

/-! ### Verdicts -/

@[simp] theorem verdict_eq_ok_true {superseded : GateErr} {x : Except GateErr Unit} :
    verdict superseded x = .ok true ↔ x = .ok () := by
  rcases x with e | ⟨⟩
  · by_cases he : e = superseded <;> simp [verdict, he]
  · simp [verdict]

variable {cmd : Command}

theorem claim_eq_ok_true {now clock : Time} : ch.claim softStart cmd now clock = .ok true ↔
      ch.validateCapacityClaim cmd now = .ok true ∧
        ch.validateCircuitClaim softStart cmd clock = .ok true := by
  simp only [StoredChannel.claim, bind_eq_ok]
  constructor
  · rintro ⟨_ | _, hv, h⟩
    · simp at h
    · exact ⟨hv, by simpa using h⟩
  · rintro ⟨hv, hc⟩
    exact ⟨true, hv, by simpa using hc⟩

variable {now : Time}

theorem claimPendingCommands_total {channels : Int → StoredChannel} {clock : Command → Time} {pending : List Command} (h : ∀ cmd ∈ pending,
      ∃ d, (channels cmd.channelID).claim softStart cmd now (clock cmd) = .ok d) :
    ∃ out, claimPendingCommands softStart channels clock now pending = .ok out := by
  induction pending with
  | nil => exact ⟨[], rfl⟩
  | cons cmd rest ih =>
    obtain ⟨d, hd⟩ := h cmd mem_cons_self
    obtain ⟨out, hout⟩ := ih fun other hm => h other (mem_cons_of_mem _ hm)
    exact ⟨if d then cmd :: out else out, by simp [claimPendingCommands, hd, hout]⟩

/-- The claim returns the selected commands that both checks let stay. -/
theorem mem_claimPendingCommands {channels : Int → StoredChannel} {clock : Command → Time}
    {pending out : List Command} (h : claimPendingCommands softStart channels clock now pending = .ok out)
    (cmd : Command) : cmd ∈ out ↔ cmd ∈ pending ∧
      (channels cmd.channelID).claim softStart cmd now (clock cmd) = .ok true := by
  induction pending generalizing out with
  | nil =>
    cases h
    simp
  | cons first rest ih =>
    simp only [claimPendingCommands, bind_eq_ok, pure_eq_ok] at h
    obtain ⟨d, hd, later, hl, rfl⟩ := h
    cases d with
    | false =>
      have hne : cmd = first → ¬(channels cmd.channelID).claim softStart cmd now (clock cmd) = .ok true := by
        rintro rfl ht
        cases hd.symm.trans ht
      rw [if_neg Bool.false_ne_true, ih hl, mem_cons]
      tauto
    | true =>
      rw [if_pos rfl, mem_cons, ih hl, mem_cons]
      constructor
      · rintro (rfl | ⟨hm, ht⟩)
        · exact ⟨.inl rfl, hd⟩
        · exact ⟨.inr hm, ht⟩
      · rintro ⟨rfl | hm, ht⟩
        · exact .inl rfl
        · exact .inr ⟨hm, ht⟩

/-! ### The claim does not fail -/

/-- What the claim decodes of the evidence can be decoded. -/
def Evidence.Readable (e : Evidence) : Prop :=
  (∃ d, e.reload.evaluation = .ok d) ∧ ∃ c, e.reload.capacity = .ok c

theorem checkWeight_failsOnly (b : BaseValue) (r : Row Standing) (p : Params) (v : Recommendation)
    (now : Time) (commandID : String) :
    FailsOnly .capacitySuperseded (checkWeight b r p v now commandID) := by
  unfold checkWeight
  exact .ite (.refuse _) (.bind (.refuse _) fun _ => .bind (.refuse _) fun _ =>
    .bind (.refuse _) fun _ => .refuse _)

theorem checkDecision_failsOnly {b : BaseValue} {policy : Policy}
    (he : ∃ d, v.evidence.evaluation = .ok d) (hc : ∃ c, v.evidence.capacity = .ok c) :
    FailsOnly .capacitySuperseded (ch.checkDecision b r policy v now commandID) := by
  obtain ⟨d, he⟩ := he
  obtain ⟨c, hc⟩ := hc
  unfold StoredChannel.checkDecision
  rw [he, hc]
  exact .bind (.found _) fun _ => .bind (.refuse _) fun _ => .bind (.refuse _) fun _ =>
    .bind (.ok _) fun _ => .bind (.found _) fun _ => .bind (.refuse _) fun _ =>
    .bind (.refuse _) fun _ => .ite (.refuse _)
      (.bind (.ok _) fun _ => .bind (.refuse _) fun _ => checkWeight_failsOnly _ _ _ _ _ _)

theorem checkContinuousCapacity_failsOnly (he : ∃ d, v.evidence.evaluation = .ok d)
    (hc : ∃ c, v.evidence.capacity = .ok c) :
    FailsOnly .capacitySuperseded (ch.checkContinuousCapacity v now commandID) := by
  have htracked : FailsOnly .capacitySuperseded (ch.checkTracked v now commandID) :=
    .bind (.refuse _) fun _ => .bind (.found _) fun _ => .bind (.refuse _) fun _ =>
      .bind (.refuse _) fun _ => .bind (.found _) fun _ => .bind (.refuse _) fun _ =>
      .ite (.refuse _) (checkDecision_failsOnly he hc)
  have hschedule : FailsOnly .capacitySuperseded (ch.checkScheduleRecovery .capacitySuperseded now) :=
    .bind (.refuse _) fun _ => .pure _
  unfold StoredChannel.checkContinuousCapacity
  exact .ite (.bind hschedule fun _ => .ite (.pure _) htracked) (.ite (.pure _) htracked)

theorem checkCircuitStatus_failsOnly {clock : Time} :
    FailsOnly .circuitStatusSuperseded (ch.checkCircuitStatus softStart v clock) := by
  have htarget (target : Int) (closed : Bool) :
      FailsOnly .circuitStatusSuperseded (ch.checkTarget softStart v target closed) :=
    .bind (.refuse _) fun _ => .bind (.found _) fun _ => .bind (.refuse _) fun _ =>
      .bind (.found _) fun _ => .bind (.refuse _) fun _ => .bind (.refuse _) fun _ =>
      .bind (.found _) fun _ => .refuse _
  have hschedule : FailsOnly .circuitStatusSuperseded
      (ch.checkScheduleRecovery .circuitStatusSuperseded clock) :=
    .bind (.refuse _) fun _ => .pure _
  unfold StoredChannel.checkCircuitStatus
  cases v.proposedChannelStatus with
  | none => exact .pure _
  | some target => exact .ite (.bind hschedule fun _ => htarget _ _) (.bind (.pure _) fun _ => htarget _ _)

theorem verdict_total {superseded : GateErr} {x : Except GateErr Unit} (h : FailsOnly superseded x) :
    ∃ d, verdict superseded x = .ok d := by
  rcases x with e | ⟨⟩
  · exact ⟨false, by simp [verdict, h e rfl]⟩
  · exact ⟨true, rfl⟩

theorem claim_total {now clock : Time}
    (h : cmd.recommendation.evidence.Readable) : ∃ d, ch.claim softStart cmd now clock = .ok d := by
  have hcap : ∃ d, ch.validateCapacityClaim cmd now = .ok d := by
    unfold StoredChannel.validateCapacityClaim
    split
    · exact ⟨true, rfl⟩
    · exact verdict_total (checkContinuousCapacity_failsOnly h.1 h.2)
  have hstatus : ∃ d, ch.validateCircuitClaim softStart cmd clock = .ok d := by
    unfold StoredChannel.validateCircuitClaim
    split
    · exact ⟨true, rfl⟩
    · exact verdict_total checkCircuitStatus_failsOnly
  obtain ⟨d, hd⟩ := hcap
  obtain ⟨d', hd'⟩ := hstatus
  exact ⟨d && d', by cases d <;> simp [StoredChannel.claim, hd, hd']⟩

/-! ### What queueing leaves behind -/

section Queued

variable {channelID : Int} {ch ch' : StoredChannel} {t clock now clock' : Time}
  (h : ch.createContinuousWeightChange softStart channelID v t clock commandID = .ok (ch', cmd))
include h

theorem create_spec :
    ch.checkContinuousCapacity v t "" = .ok () ∧ ch.checkCircuitStatus softStart v clock = .ok () ∧
      (∃ row, linkCapacityCommand ch.row v commandID = .ok row ∧
        ch' = {ch with row := markStatus row v commandID}) ∧
      ∃ instanceID, cmd = ⟨commandID, instanceID, channelID, v.proposedChannelStatus, v⟩ := by
  simp only [StoredChannel.createContinuousWeightChange, bind_eq_ok, found_eq_ok, pure_eq_ok,
    Prod.mk.injEq] at h
  obtain ⟨_, -, _, hcap, _, hstatus, instanceID, -, row, hlink, rfl, rfl⟩ := h
  exact ⟨hcap, hstatus, ⟨row, hlink, rfl⟩, instanceID, rfl⟩

/-- A queued weight is tracked, and its marker stands in the row. -/
theorem create_weight_spec
    (hs : v.proposedChannelStatus = none) (hw : v.rule.writesWeight = true) :
    v.capacityManaged = true ∧ ∃ r, ch.row = some r ∧
      (r.rest.capacity.pendingCommandID = "" ∨ v.rule = .circuitOpened) ∧
      ch' = {ch with row := some (r.linked v commandID)} := by
  obtain ⟨hcap, -, ⟨row, hlink, rfl⟩, -⟩ := create_spec h
  have hm : v.capacityManaged = true := by
    obtain ⟨_, _, _, -, -, -, ha, -⟩ :=
      checkTracked_iff.mp ((checkContinuousCapacity_iff (exempt_of_weight hs hw)).mp hcap).2
    exact ha.tracked.resolve_right (by simp [statusRecovery_of_weight hs])
  refine ⟨hm, ?_⟩
  simp only [linkCapacityCommand, hm, Bool.not_true, Bool.false_eq_true, if_false] at hlink
  cases hrow : ch.row with
  | none => simp [hrow] at hlink
  | some r =>
    simp only [hrow] at hlink
    split at hlink
    · cases hlink
      exact ⟨r, rfl, ‹_›, by simp [markStatus, hs, Row.linked]⟩
    · cases hlink

/-- A queued status is one of the two that the circuit sets, and its marker stands in
the row. -/
theorem create_status_spec
    (hs : v.proposedChannelStatus = some target) :
    (target = 1 ∧ v.rule = .circuitRecovered ∨ target = 2 ∧ v.rule = .circuitDisabled) ∧
      ∃ r, ch.row = some r ∧ r.controlRevision = v.evidence.controlRevision ∧
        ch' = {ch with row := some {r with
          circuitStatusTarget := target, rest := {r.rest with circuitStatusCommandID := commandID}}} := by
  obtain ⟨-, hstatus, ⟨row, hlink, rfl⟩, -⟩ := create_spec h
  obtain ⟨hrule, r, hr, hrev⟩ := checkTarget_spec ((checkCircuitStatus_some_iff hs).mp hstatus).2
  have hm : v.capacityManaged = false := by simp [capacityManaged, hs]
  simp only [linkCapacityCommand, hm, Bool.not_false, if_true] at hlink
  cases hlink
  exact ⟨hrule, r, hr, hrev, by simp [markStatus, hs, hr, hrev]⟩

/-! ### The claim of what was queued -/

/-- What must hold for the claim of a queued command to agree with its queueing. -/
structure StoredChannel.Deliverable (ch : StoredChannel) (v : Recommendation) (now clock : Time) :
    Prop where
  /-- A status command belongs to the first generation of its row. -/
  revision : v.proposedChannelStatus ≠ none → revisionOf ch.row = 0
  /-- The schedule lets the channel recover when it is claimed. -/
  recovery : v.rule = .circuitRecovered → ch.opensAt now
  enabling : v.proposedChannelStatus = some 1 → ch.opensAt clock
  /-- The integers of the evidence survive their way through `float64`. -/
  evaluation : v.capacityManaged = true → v.evidence.EvaluationSurvives
  limits : v.capacityManaged = true → v.rule ≠ .circuitOpened → v.evidence.LimitsSurvive

open StoredChannel

theorem claim_weight_iff
    (hs : v.proposedChannelStatus = none) (hw : v.rule.writesWeight = true) (hid : commandID ≠ "")
    (ht : t ≤ now) (hage : ch.SampleCurrent now) :
    ch'.claim softStart cmd now clock' = .ok true ↔ ch.Deliverable v now clock' := by
  obtain ⟨hm, r, hr, -, rfl⟩ := create_weight_spec h hs hw
  obtain ⟨hcap, -, -, instanceID, rfl⟩ := create_spec h
  have htracked := ((checkContinuousCapacity_iff (exempt_of_weight hs hw)).mp hcap).2
  rw [claim_eq_ok_true, validateCapacityClaim, validateCircuitClaim,
    reloaded_queued]
  simp only [hw, Bool.not_true, Bool.false_eq_true, if_false, verdict_eq_ok_true, hs, Option.isNone_none,
    Bool.true_or, if_true, and_true]
  rw [checkContinuousCapacity_iff (v := v.reload) (exempt_of_weight hs hw),
    checkTracked_linked_iff htracked hs hr hid ht hage]
  constructor
  · rintro ⟨hopen, hev, hlim⟩
    exact ⟨fun hn => absurd hs hn, hopen, by simp [hs], fun _ => hev, fun _ => hlim⟩
  · intro hd
    exact ⟨hd.recovery, hd.evaluation hm, hd.limits hm⟩

omit h in
theorem circuitClaim_iff {clock : Time} {commandID instanceID : String} {channelID target : Int}
    (hs : v.proposedChannelStatus = some target) (hr : ch.row = some r)
    (hrule : v.rule = .circuitRecovered ∨ v.rule = .circuitDisabled)
    (h : ch.checkTarget softStart v target (target == 1 && ch.schedule.any (·.closed)) = .ok ()) :
    ({ch with row := some {r with
        circuitStatusTarget := target
        rest := {r.rest with circuitStatusCommandID := commandID}}} : StoredChannel).validateCircuitClaim
      softStart ⟨commandID, instanceID, channelID, v.proposedChannelStatus, v⟩ clock = .ok true ↔
      (target = 1 → ch.opensAt clock) ∧ r.controlRevision = 0 := by
  have hskip : (v.rule != .circuitDisabled && v.rule != .circuitRecovered) = false := by
    rcases hrule with hrule | hrule <;> simp [hrule]
  rw [validateCircuitClaim]
  simp only [hs, hskip, Option.isNone_some, Bool.or_self, Bool.false_eq_true, if_false,
    verdict_eq_ok_true]
  rw [checkCircuitStatus_some_iff rfl, ← checkTarget_without_evidence_iff h hr]
  rfl

theorem claim_status_iff
    (hs : v.proposedChannelStatus = some target) (ht : t ≤ now) (hage : ch.SampleCurrent now) :
    ch'.claim softStart cmd now clock' = .ok true ↔ ch.Deliverable v now clock' := by
  obtain ⟨hrule, r, hr, -, rfl⟩ := create_status_spec h hs
  obtain ⟨hcap, hstatus, -, instanceID, rfl⟩ := create_spec h
  have htarget := ((checkCircuitStatus_some_iff hs).mp hstatus).2
  have hm : ¬v.capacityManaged = true := by simp [capacityManaged, hs]
  have hrev : revisionOf ch.row = r.controlRevision := by simp [revisionOf, hr]
  rw [claim_eq_ok_true, circuitClaim_iff hs hr (hrule.imp And.right And.right) htarget,
    validateCapacityClaim]
  rcases hrule with ⟨rfl, hrule⟩ | ⟨rfl, hrule⟩
  · have hrec : v.statusRecovery = true := by simp [statusRecovery, hs, hrule]
    have hex : v.exempt = false := by simp [exempt, hrec]
    have htracked := ((checkContinuousCapacity_iff hex).mp hcap).2
    simp only [hrule, Rule.writesWeight, Bool.not_true, Bool.false_eq_true, if_false, verdict_eq_ok_true]
    rw [reloaded_queued, checkContinuousCapacity_iff (v := v.reload) hex]
    constructor
    · rintro ⟨⟨hopen, -⟩, henable, h0⟩
      exact ⟨fun _ => hrev.trans h0, hopen, fun _ => by simpa using henable, fun h => absurd h hm,
        fun h => absurd h hm⟩
    · intro hd
      exact ⟨⟨hd.recovery, checkTracked_marked htracked hrec hrec hr rfl rfl rfl rfl ht hage⟩,
        fun _ => hd.enabling hs, hrev.symm.trans (hd.revision (by simp [hs]))⟩
  · simp only [hrule, Rule.writesWeight, Bool.not_false, if_true, true_and]
    constructor
    · rintro ⟨-, h0⟩
      exact ⟨fun _ => hrev.trans h0, by simp [hrule], by simp [hs], fun h => absurd h hm,
        fun h => absurd h hm⟩
    · intro hd
      exact ⟨fun h => absurd h (by decide), hrev.symm.trans (hd.revision (by simp [hs]))⟩

/-- A command is claimed as it was queued exactly when it is deliverable. -/
theorem claim_iff
    (hid : commandID ≠ "") (ht : t ≤ now) (hage : ch.SampleCurrent now) :
    ch'.claim softStart cmd now clock' = .ok true ↔ ch.Deliverable v now clock' := by
  cases hs : v.proposedChannelStatus with
  | some target => exact claim_status_iff h hs ht hage
  | none =>
    cases hw : v.rule.writesWeight with
    | true => exact claim_weight_iff h hs hw hid ht hage
    | false =>
      obtain ⟨-, -, -, instanceID, rfl⟩ := create_spec h
      have hm : ¬v.capacityManaged = true := by simp [capacityManaged, hw]
      have hd : ch.Deliverable v now clock' :=
        ⟨fun hn => absurd hs hn, fun hr => by simp [hr, Rule.writesWeight] at hw, by simp [hs],
          fun h => absurd h hm, fun h => absurd h hm⟩
      simp [claim_eq_ok_true, validateCapacityClaim, validateCircuitClaim,
        hw, hs, hd]

end Queued

/-- **A queued command is delivered by the next claim exactly when it is deliverable.**
Since it was queued nothing but its own markers changed, and the sample of a channel
with a limit is not too old; the other selected commands carry evidence that can be decoded. -/
theorem queued_command_delivered_iff {channels : Int → StoredChannel} {ch' : StoredChannel}
    {channelID : Int} {v : Recommendation} {t clock now : Time} {commandID : String} {cmd : Command}
    {pending : List Command} (clocks : Command → Time)
    (h : (channels channelID).createContinuousWeightChange softStart channelID v t clock commandID =
      .ok (ch', cmd))
    (hid : commandID ≠ "") (hmem : cmd ∈ pending) (ht : t ≤ now)
    (hage : (channels channelID).SampleCurrent now)
    (hother : ∀ other ∈ pending, other ≠ cmd → other.recommendation.evidence.Readable) :
    (∃ out, claimPendingCommands softStart (Function.update channels channelID ch') clocks now pending =
      .ok out ∧ cmd ∈ out) ↔ (channels channelID).Deliverable v now (clocks cmd) := by
  have hchannel : Function.update channels channelID ch' cmd.channelID = ch' := by
    obtain ⟨-, -, -, instanceID, rfl⟩ := create_spec h
    exact Function.update_self channelID ch' channels
  have hiff : (Function.update channels channelID ch' cmd.channelID).claim softStart cmd now
      (clocks cmd) = .ok true ↔ (channels channelID).Deliverable v now (clocks cmd) := by
    rw [hchannel]
    exact claim_iff h hid ht hage
  rw [← hiff]
  constructor
  · rintro ⟨out, hout, hin⟩
    exact ((mem_claimPendingCommands hout cmd).mp hin).2
  · intro hclaim
    have hall (other : Command) (hm : other ∈ pending) : ∃ d,
        (Function.update channels channelID ch' other.channelID).claim softStart other now (clocks other) =
          .ok d := by
      by_cases ho : other = cmd
      · exact ⟨true, ho ▸ hclaim⟩
      · exact claim_total (hother other hm ho)
    obtain ⟨out, hout⟩ := claimPendingCommands_total hall
    exact ⟨out, hout, (mem_claimPendingCommands hout cmd).mpr ⟨hmem, hclaim⟩⟩

end StatusChecks

/-- A channel whose circuit is open and whose disabling is due, in a generation of its
row. -/
def disablingChannel (revision : Nat) : StoredChannel where
  base := some ⟨"model", 10, 0, 0, 0⟩
  row := some {
    modelName := "model", controlRevision := revision, circuitDisabled := true
    circuitStatusTarget := 2, updatedAt := 0
    rest := ⟨.circuit, 0, false, "", false, {}⟩}
  policy := some ⟨0, fun _ => some .auto, ⟨defaultContinuousRules, 1/5, [], [], [], []⟩⟩
  snapshot := some ⟨["model"], true, 10, 0⟩
  schedule := none
  controlInstance := some "agent"

def disabling (revision : Nat) : Recommendation :=
  ⟨.circuitDisabled, .auto, 10, 0, some 2, {controlRevision := revision, model := some "model"}⟩

/-- The command queued for it, and the channel with the command's marker. -/
def disablingCommand (revision : Nat) : Command := ⟨"c", "agent", 7, some 2, disabling revision⟩

def markedChannel (revision : Nat) : StoredChannel :=
  {disablingChannel revision with
    row := markStatus (disablingChannel revision).row (disabling revision) "c"}

theorem queued_command_delivered_iff_disabling : ∃ out,
    claimPendingCommands (fun _ _ => 2) (Function.update (fun _ => disablingChannel 0) 7 (markedChannel 0))
      (fun _ => 0) 0 [disablingCommand 0] = .ok out ∧ disablingCommand 0 ∈ out := by
  have hcreate : (disablingChannel 0).createContinuousWeightChange (fun _ _ => 2) 7 (disabling 0) 0 0 "c" =
      .ok (markedChannel 0, disablingCommand 0) := rfl
  have hage : (disablingChannel 0).SampleCurrent 0 := by
    rintro _ _ _ ⟨⟩ - - hlimited
    cases hlimited
  refine (queued_command_delivered_iff (fun _ => 0) hcreate (by decide) mem_cons_self
    (le_refl (0 : Int)) hage ?_).mpr ?_
  · intro other hm hne
    exact absurd (mem_singleton.mp hm) hne
  · have hunmanaged : ¬(disabling 0).capacityManaged = true := by decide
    exact ⟨fun _ => rfl, nofun, nofun, fun h => absurd h hunmanaged, fun h => absurd h hunmanaged⟩

/-- In any later generation the command is expired by the claim that should deliver it. -/
theorem disabling_expired :
    (disablingChannel 1).createContinuousWeightChange (fun _ _ => 2) 7 (disabling 1) 0 0 "c" =
      .ok (markedChannel 1, disablingCommand 1) ∧
    claimPendingCommands (fun _ _ => 2) (Function.update (fun _ => disablingChannel 1) 7 (markedChannel 1))
      (fun _ => 0) 0 [disablingCommand 1] = .ok [] :=
  ⟨rfl, rfl⟩

end ControlTower.Tuning
