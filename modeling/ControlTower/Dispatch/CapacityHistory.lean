import ControlTower.Dispatch.Capacity

/-! When a capacity latch is released and when a weight is reduced.

The control keeps no samples, only four clocks that different branches reset. Over
a history of calls, confirmed writes and commands that come and go, each clock that
runs stands for a chain of samples: one sample after another, close enough
together, each with the utilization that keeps the clock running. -/
namespace ControlTower.Dispatch
open Go Tuning CapacityControl CapacityControl

inductive CapacityEvent where
  | update (b : BaseValue) (asOf now : Time) (available : Bool) (maxDecreasePercent : Rat)
  | confirm (weight : Int) (appliedAt : Time)
  /-- A tracked command is created. -/
  | pend (b : BaseValue) (id : String) (weight : Int)
  /-- The awaited command ended without being applied. -/
  | drop (failed : Bool)

def CapacityEvent.isUpdate : CapacityEvent → Bool
  | update .. => true
  | _ => false

def CapacityEvent.isConfirm : CapacityEvent → Bool
  | confirm .. => true
  | _ => false

/-- What stays fixed over a history: the rules, the rates by the cutoff that they
cover, and the state before the control was ever used. -/
structure Watch where
  rules : CapacityRules
  rates : Time → Rat × Rat
  silentMinutes : Int
  first : State

namespace Watch
variable (w : Watch)

def measure (s : State) (asOf : Time) : State :=
  {s with rest := {s.rest with metricRPM := (w.rates asOf).1, metricTPM := (w.rates asOf).2}}

def step (s : State) : CapacityEvent → State
  | .update b asOf now available maxDecreasePercent =>
    updateCapacity w.rules b (w.measure s asOf) asOf now available maxDecreasePercent
  | .confirm weight appliedAt => confirmCapacityWrite w.silentMinutes s weight appliedAt
  | .pend b id weight => awaitWrite (trackWrites b s) id weight
  | .drop failed =>
    let s := forgetWrite s
    if failed then
      {s with rest := {s.rest with capacity := {s.rest.capacity with phase := .writeFailed}}}
    else s

/-- The state after a history, the newest event first. -/
def run : List CapacityEvent → State
  | [] => {w.first with rest := {w.first.rest with capacity := {}}}
  | e :: es => w.step (run es) e

/-- The control after a history. -/
def control (es : List CapacityEvent) : CapacityControl := (w.run es).rest.capacity

def utilization (b : BaseValue) (asOf : Time) : Rat :=
  capacityUtilization b (w.rates asOf).1 (w.rates asOf).2

/-! ### Chains of samples -/

/-- The evaluation has evidence that is available and not stale. -/
def Fresh (c : CapacityControl) (b : BaseValue) (asOf now : Time) (available : Bool) : Prop :=
  b.capacityConfigured = true ∧ c.freshAt w.rules asOf now available = true

/-- The evaluation takes `asOf` as a new sample. -/
def Accepts (c : CapacityControl) (b : BaseValue) (asOf now : Time) (available : Bool) : Prop :=
  w.Fresh c b asOf now available ∧ c.sampleAt < asOf

/-- The history ends in a chain of accepted samples, newest first: `sample` holds of
the utilization and the control at each of them, and `calm` of every event after
the first and the history before it. An evaluation within the chain is never stale. -/
inductive Chain (sample : Rat → CapacityControl → Prop)
    (calm : CapacityEvent → List CapacityEvent → Prop) : List CapacityEvent → List Time → Prop
  | first {es b asOf now available percent} :
      w.Accepts (w.control es) b asOf now available →
      sample (w.utilization b asOf) (w.control es) →
      Chain sample calm (.update b asOf now available percent :: es) [asOf]
  | next {es b asOf now available percent t ts} :
      Chain sample calm es (t :: ts) →
      w.Accepts (w.control es) b asOf now available →
      t < asOf → asOf - t ≤ Time.seconds w.rules.sampleGapSeconds →
      sample (w.utilization b asOf) (w.control es) →
      calm (.update b asOf now available percent) es →
      Chain sample calm (.update b asOf now available percent :: es) (asOf :: t :: ts)
  | again {es b asOf now available percent ts} :
      Chain sample calm es (asOf :: ts) →
      w.Fresh (w.control es) b asOf now available →
      calm (.update b asOf now available percent) es →
      Chain sample calm (.update b asOf now available percent :: es) (asOf :: ts)
  | meanwhile {es e ts} :
      Chain sample calm es ts → e.isUpdate = false → calm e es →
      Chain sample calm (e :: es) ts

/-- No write was confirmed, and no other weight was found. -/
def undisturbed (e : CapacityEvent) (es : List CapacityEvent) : Prop :=
  e.isConfirm = false ∧ (w.control (e :: es)).confirmedWeight = (w.control es).confirmedWeight ∧
    (w.control (e :: es)).appliedAt = (w.control es).appliedAt

/-- A sample that counts for the release: low, and with no command on its way. -/
def low (u : Rat) (c : CapacityControl) : Prop :=
  u < w.rules.releaseUtilization ∧ c.pendingCommandID = ""

/-- A sample that counts for a reduction. -/
def high (u : Rat) (_ : CapacityControl) : Prop := 1 ≤ u

variable {w} {sample : Rat → CapacityControl → Prop} {calm : CapacityEvent → List CapacityEvent → Prop}
  {es : List CapacityEvent} {b : BaseValue} {asOf now since : Time} {available : Bool} {percent : Rat}

theorem Fresh.nonzero {c : CapacityControl} (h : w.Fresh c b asOf now available) : asOf.isZero = false := by
  have := h.2
  simp only [freshAt, Bool.and_eq_true, Bool.not_eq_true'] at this
  exact this.1.1.1.2

theorem Chain.nonzero {t : Time} {ts : List Time} (h : w.Chain sample calm es (t :: ts)) :
    t.isZero = false := by
  generalize hl : t :: ts = l at h
  induction h with
  | first hacc _ => cases hl; exact hacc.1.nonzero
  | next _ hacc _ _ _ _ _ => cases hl; exact hacc.1.nonzero
  | again _ hfresh _ _ => cases hl; exact hfresh.nonzero
  | meanwhile _ _ _ ih => exact ih hl

/-- A chain from `since` to the last sample. -/
def Since (w : Watch) (sample : Rat → CapacityControl → Prop)
    (calm : CapacityEvent → List CapacityEvent → Prop) (es : List CapacityEvent) (since : Time) : Prop :=
  ∃ ts, w.Chain sample calm es ((w.control es).sampleAt :: ts) ∧
    ((w.control es).sampleAt :: ts).getLast? = some since

/-- The control before the evidence of an update is looked at. -/
def preparedAt (w : Watch) (es : List CapacityEvent) (b : BaseValue) (asOf now : Time) : CapacityControl :=
  (w.control es).prepared b (effectiveCurrentWeight b (w.measure (w.run es) asOf)) now

/-- The control once the sample is taken in. -/
def sampledAt (w : Watch) (es : List CapacityEvent) (b : BaseValue) (asOf now : Time) : CapacityControl :=
  ((w.preparedAt es b asOf now).measured (w.utilization b asOf)).sampled w.rules asOf

theorem control_fresh (h : w.Fresh (w.control es) b asOf now available) (percent : Rat) :
    ∃ raw bound, w.control (.update b asOf now available percent :: es) =
      {w.sampledAt es b asOf now with
        phase := (w.sampledAt es b asOf now).phaseAt w.rules asOf
        rawTarget := raw, boundWeight := bound} := by
  obtain ⟨hconf, hfresh⟩ := h
  have hprep : (w.preparedAt es b asOf now).freshAt w.rules asOf now available = true := by
    rw [preparedAt, prepared_freshAt, hfresh]
  obtain ⟨raw, bound, haimed⟩ := aimed_eq
    {w.sampledAt es b asOf now with phase := (w.sampledAt es b asOf now).phaseAt w.rules asOf}
    w.rules percent
  refine ⟨raw, bound, haimed ▸ ?_⟩
  simp only [preparedAt, measure, control] at hprep
  simp only [control, run, step, updateCapacity, hconf, measure, hprep]
  rfl

theorem control_stale (hconf : b.capacityConfigured = true)
    (h : (w.control es).freshAt w.rules asOf now available = false) (percent : Rat) :
    w.control (.update b asOf now available percent :: es) = (w.preparedAt es b asOf now).stale := by
  have hprep : (w.preparedAt es b asOf now).freshAt w.rules asOf now available = false := by
    rw [preparedAt, prepared_freshAt, h]
  simp only [preparedAt, measure, control] at hprep
  simp only [control, run, step, updateCapacity, hconf, measure, hprep]
  rfl

theorem control_uncapped (w : Watch) (es : List CapacityEvent) (asOf now : Time) (available : Bool)
    (percent : Rat) (hconf : b.capacityConfigured = false) :
    ∃ weight, w.control (.update b asOf now available percent :: es) = (w.control es).uncapped weight := by
  simp only [control, run, step, updateCapacity, hconf, measure]
  exact ⟨_, rfl⟩

theorem sampledAt_kept (w : Watch) (es : List CapacityEvent) (b : BaseValue) (asOf now : Time) :
    (w.sampledAt es b asOf now).initialized = true ∧
    (w.sampledAt es b asOf now).maxRPM = b.maxRPM ∧ (w.sampledAt es b asOf now).maxTPM = b.maxTPM ∧
    (w.sampledAt es b asOf now).confirmedWeight = (w.preparedAt es b asOf now).confirmedWeight ∧
    (w.sampledAt es b asOf now).appliedAt = (w.preparedAt es b asOf now).appliedAt := by
  obtain ⟨active, sampleAt, overSince, underSince, heq⟩ := sampled_eq
    ((w.preparedAt es b asOf now).measured (w.utilization b asOf)) w.rules asOf
  rw [sampledAt, heq]
  exact ⟨prepared_initialized, prepared_limits.1,
    prepared_limits.2, rfl, rfl⟩

theorem measured_sampleAt : ((w.preparedAt es b asOf now).measured (w.utilization b asOf)).sampleAt = (w.control es).sampleAt :=
  prepared_sampleAt

/-- A sample that was there already is not taken in again. -/
theorem sampledAt_same (h : (w.control es).sampleAt = asOf) :
    w.sampledAt es b asOf now = (w.preparedAt es b asOf now).measured (w.utilization b asOf) :=
  sampled_of_le (measured_sampleAt.trans h).ge

theorem Fresh.sampleAt_le (h : w.Fresh (w.control es) b asOf now available) :
    (w.control es).sampleAt ≤ asOf := by
  have := h.2
  simp only [freshAt, Bool.and_eq_true, decide_eq_true_eq] at this
  exact this.2

theorem control_sampleAt (h : w.Fresh (w.control es) b asOf now available) (percent : Rat) :
    (w.control (.update b asOf now available percent :: es)).sampleAt = asOf := by
  obtain ⟨raw, bound, heq⟩ := control_fresh h percent
  rw [heq]
  change (w.sampledAt es b asOf now).sampleAt = asOf
  rcases Int.lt_or_eq_of_le h.sampleAt_le with hnew | hsame
  · exact sampled_sampleAt (measured_sampleAt ▸ hnew)
  · rw [sampledAt_same hsame, measured_sampleAt, hsame]

/-! ### A clock that runs stands for a chain -/

theorem since_first (hacc : w.Accepts (w.control es) b asOf now available)
    (hsample : sample (w.utilization b asOf) (w.control es)) :
    w.Since sample calm (.update b asOf now available percent :: es) asOf := by
  refine ⟨[], ?_, ?_⟩ <;> rw [control_sampleAt hacc.1]
  · exact .first hacc hsample
  · rfl

theorem since_next (h : w.Since sample calm es since)
    (hacc : w.Accepts (w.control es) b asOf now available)
    (htime : (w.control es).InTime w.rules asOf)
    (hsample : sample (w.utilization b asOf) (w.control es))
    (hcalm : calm (.update b asOf now available percent) es) :
    w.Since sample calm (.update b asOf now available percent :: es) since := by
  obtain ⟨ts, hchain, hlast⟩ := h
  refine ⟨(w.control es).sampleAt :: ts, ?_, ?_⟩ <;> rw [control_sampleAt hacc.1]
  · exact .next hchain hacc hacc.2 (htime hchain.nonzero) hsample hcalm
  · rw [List.getLast?_cons_cons, hlast]

theorem since_again (h : w.Since sample calm es since)
    (hfresh : w.Fresh (w.control es) b asOf now available) (hsame : (w.control es).sampleAt = asOf)
    (hcalm : calm (.update b asOf now available percent) es) :
    w.Since sample calm (.update b asOf now available percent :: es) since := by
  obtain ⟨ts, hchain, hlast⟩ := h
  rw [hsame] at hchain hlast
  refine ⟨ts, ?_, ?_⟩ <;> rw [control_sampleAt hfresh]
  · exact .again hchain hfresh hcalm
  · exact hlast

theorem since_meanwhile {e : CapacityEvent} (h : w.Since sample calm es since)
    (he : e.isUpdate = false) (hcalm : calm e es)
    (hsame : (w.control (e :: es)).sampleAt = (w.control es).sampleAt) :
    w.Since sample calm (e :: es) since := by
  obtain ⟨ts, hchain, hlast⟩ := h
  refine ⟨ts, ?_, ?_⟩ <;> rw [hsame]
  · exact .meanwhile hchain he hcalm
  · exact hlast

/-- What a history leaves: a latch only under a limit, and behind each running clock
its chain. -/
structure Held (w : Watch) (es : List CapacityEvent) : Prop where
  limited : (w.control es).active = true → (w.control es).initialized = true ∧
    (0 < (w.control es).maxRPM ∨ 0 < (w.control es).maxTPM)
  high : (w.control es).overSince.isZero = false →
    w.Since Watch.high (fun _ _ => True) es (w.control es).overSince
  low : (w.control es).underSince.isZero = false → (w.control es).initialized = true ∧
    w.Since w.low w.undisturbed es (w.control es).underSince ∧
    (w.control es).feedbackReady w.rules (w.control es).underSince = true

theorem held_nil : w.Held [] := by
  constructor <;> simp [control, run, Time.isZero]

theorem undisturbed_update (hfresh : w.Fresh (w.control es) b asOf now available)
    (hinit : (w.control es).initialized = true)
    (hruns : (w.preparedAt es b asOf now).underSince.isZero = false) :
    w.undisturbed (.update b asOf now available percent) es := by
  obtain ⟨raw, bound, heq⟩ := control_fresh hfresh percent
  obtain ⟨-, -, -, hweight, happlied⟩ := w.sampledAt_kept es b asOf now
  obtain ⟨hw, ha⟩ := (prepared_underSince hruns).2 hinit
  refine ⟨rfl, ?_, ?_⟩ <;> rw [heq]
  · exact hweight.trans hw
  · exact happlied.trans ha

theorem Held.high_update (h : w.Held es) (hfresh : w.Fresh (w.control es) b asOf now available)
    (hruns : (w.sampledAt es b asOf now).overSince.isZero = false) :
    w.Since Watch.high (fun _ _ => True) (.update b asOf now available percent :: es)
      (w.sampledAt es b asOf now).overSince := by
  rcases Int.lt_or_eq_of_le hfresh.sampleAt_le with hnew | hsame
  · obtain ⟨hhigh, hsince | ⟨hsince, hz, htime⟩⟩ := sampled_overSince (measured_sampleAt ▸ hnew) hruns
    · rw [sampledAt, hsince]
      exact since_first ⟨hfresh, hnew⟩ hhigh
    · have hkept := prepared_overSince hz
      have hbefore : (w.control es).overSince.isZero = false := hkept ▸ hz
      rw [sampledAt, hsince]
      change w.Since _ _ _ (w.preparedAt es b asOf now).overSince
      rw [preparedAt, hkept]
      exact since_next (h.high hbefore) ⟨hfresh, hnew⟩ (by simpa [CapacityControl.InTime, measured_sampleAt] using htime) hhigh trivial
  · rw [sampledAt_same hsame] at hruns ⊢
    have hkept := prepared_overSince hruns
    have hbefore : (w.control es).overSince.isZero = false := hkept ▸ hruns
    change w.Since _ _ _ (w.preparedAt es b asOf now).overSince
    rw [preparedAt, hkept]
    exact since_again (h.high hbefore) hfresh hsame trivial

theorem feedbackReady_congr {c d : CapacityControl} (r : CapacityRules) (t : Time)
    (h : c.appliedAt = d.appliedAt) : c.feedbackReady r t = d.feedbackReady r t := by
  simp [feedbackReady, h]

/-- A release clock that was running before the sample or evaluation, and still is. -/
theorem Held.low_prepared (h : w.Held es)
    (hruns : (w.preparedAt es b asOf now).underSince.isZero = false) :
    (w.control es).initialized = true ∧
      w.Since w.low w.undisturbed es (w.preparedAt es b asOf now).underSince ∧
      (w.sampledAt es b asOf now).feedbackReady w.rules (w.preparedAt es b asOf now).underSince = true := by
  obtain ⟨hkept, hsteady⟩ := prepared_underSince hruns
  obtain ⟨hinit, hsince, hready⟩ := h.low (hkept ▸ hruns)
  have happlied := (w.sampledAt_kept es b asOf now).2.2.2.2.trans (hsteady hinit).2
  refine ⟨hinit, ?_, ?_⟩ <;> rw [preparedAt, hkept]
  · exact hsince
  · rw [feedbackReady_congr w.rules _ happlied, hready]

theorem Held.low_update (h : w.Held es) (hfresh : w.Fresh (w.control es) b asOf now available)
    (hruns : (w.sampledAt es b asOf now).underSince.isZero = false) :
    w.Since w.low w.undisturbed (.update b asOf now available percent :: es)
        (w.sampledAt es b asOf now).underSince ∧
      (w.sampledAt es b asOf now).feedbackReady w.rules (w.sampledAt es b asOf now).underSince = true := by
  rcases Int.lt_or_eq_of_le hfresh.sampleAt_le with hnew | hsame
  · obtain ⟨hlow, hready, hpending, hcont⟩ := sampled_underSince (measured_sampleAt ▸ hnew) hruns
    have hsample : w.low (w.utilization b asOf) (w.control es) :=
      ⟨hlow, prepared_pendingCommandID ▸ hpending⟩
    rcases hcont with hsince | ⟨hsince, hz, htime⟩ <;> rw [sampledAt, hsince]
    · exact ⟨since_first ⟨hfresh, hnew⟩ hsample,
        (feedbackReady_congr w.rules asOf (w.sampledAt_kept es b asOf now).2.2.2.2).trans hready⟩
    · obtain ⟨hinit, hchain, hstill⟩ := h.low_prepared hz
      exact ⟨since_next hchain ⟨hfresh, hnew⟩ (by simpa [CapacityControl.InTime, measured_sampleAt] using htime)
        hsample (undisturbed_update hfresh hinit hz), hstill⟩
  · rw [sampledAt_same hsame] at hruns
    obtain ⟨hinit, hchain, hstill⟩ := h.low_prepared hruns
    rw [sampledAt_same hsame] at hstill ⊢
    exact ⟨since_again hchain hfresh hsame (undisturbed_update hfresh hinit hruns), hstill⟩

theorem Held.update (h : w.Held es) : w.Held (.update b asOf now available percent :: es) := by
  cases hconf : b.capacityConfigured with
  | false =>
    obtain ⟨weight, heq⟩ := control_uncapped w es asOf now available percent hconf
    have hstill : ((w.control es).uncapped weight).active = false ∧
        ((w.control es).uncapped weight).overSince = Time.zero ∧
        ((w.control es).uncapped weight).underSince = Time.zero := by
      simp only [uncapped]
      split_ifs <;> simp
    constructor <;> rw [heq] <;> simp [hstill, Time.isZero]
  | true =>
    have hpos : 0 < b.maxRPM ∨ 0 < b.maxTPM := by simpa [BaseValue.capacityConfigured] using hconf
    cases hfreshAt : (w.control es).freshAt w.rules asOf now available with
    | false =>
      have heq := control_stale hconf hfreshAt percent
      constructor <;> rw [heq]
      · exact fun _ => ⟨prepared_initialized, by
          rw [stale, preparedAt, prepared_limits.1,
            prepared_limits.2]
          exact hpos⟩
      · simp [stale, Time.isZero]
      · simp [stale, Time.isZero]
    | true =>
      have hfresh : w.Fresh (w.control es) b asOf now available := ⟨hconf, hfreshAt⟩
      obtain ⟨raw, bound, heq⟩ := control_fresh hfresh percent
      obtain ⟨hinit, hrpm, htpm, -⟩ := w.sampledAt_kept es b asOf now
      constructor <;> rw [heq]
      · exact fun _ => ⟨hinit, by rw [hrpm, htpm]; exact hpos⟩
      · exact fun hruns => h.high_update hfresh hruns
      · exact fun hruns => ⟨hinit, h.low_update hfresh hruns⟩

/-- An event that leaves the clocks and the limits alone keeps what they stand for. -/
theorem Held.meanwhile {e : CapacityEvent} (h : w.Held es) (he : e.isUpdate = false)
    (hsample : (w.control (e :: es)).sampleAt = (w.control es).sampleAt)
    (hactive : (w.control (e :: es)).active = (w.control es).active)
    (hover : (w.control (e :: es)).overSince = (w.control es).overSince)
    (hlimits : (w.control es).initialized = true → (w.control (e :: es)).initialized = true ∧
      (w.control (e :: es)).maxRPM = (w.control es).maxRPM ∧
      (w.control (e :: es)).maxTPM = (w.control es).maxTPM)
    (hunder : (w.control (e :: es)).underSince.isZero = true ∨
      (w.control (e :: es)).underSince = (w.control es).underSince ∧
        ((w.control es).initialized = true → w.undisturbed e es)) :
    w.Held (e :: es) := by
  constructor
  · intro hlatched
    obtain ⟨hinit, hpos⟩ := h.limited (hactive ▸ hlatched)
    obtain ⟨hinit', hrpm, htpm⟩ := hlimits hinit
    exact ⟨hinit', by rw [hrpm, htpm]; exact hpos⟩
  · intro hruns
    rw [hover] at hruns ⊢
    exact since_meanwhile (h.high hruns) he trivial hsample
  · intro hruns
    rcases hunder with hz | ⟨hkept, hcalm⟩
    · simp [hz] at hruns
    · rw [hkept] at hruns ⊢
      obtain ⟨hinit, hsince, hready⟩ := h.low hruns
      have hundisturbed := hcalm hinit
      exact ⟨(hlimits hinit).1, since_meanwhile hsince he hundisturbed hsample,
        (feedbackReady_congr w.rules _ hundisturbed.2.2).trans hready⟩

theorem Held.pend {id : String} {weight : Int} (h : w.Held es) : w.Held (.pend b id weight :: es) := by
  have heq : w.control (.pend b id weight :: es) =
      (awaitWrite (trackWrites b (w.run es)) id weight).rest.capacity := rfl
  cases hinit : (w.control es).initialized with
  | true =>
    have htracked : trackWrites b (w.run es) = w.run es := if_pos hinit
    rw [htracked] at heq
    apply h.meanwhile rfl <;> rw [heq]
    · rfl
    · rfl
    · rfl
    · exact fun hinit => ⟨hinit, rfl, rfl⟩
    · exact .inr ⟨rfl, fun _ => ⟨rfl, by rw [heq]; rfl, by rw [heq]; rfl⟩⟩
  | false =>
    -- No release clock runs before the tracker starts.
    have hunder : (w.control es).underSince.isZero = true := by
      by_contra hruns
      simp [(h.low (by simpa using hruns)).1] at hinit
    have hnot : ¬(w.run es).rest.capacity.initialized = true := by simpa [control] using hinit
    rw [trackWrites, if_neg hnot] at heq
    apply h.meanwhile rfl <;> rw [heq]
    · rfl
    · rfl
    · rfl
    · simp [hinit]
    · exact .inl hunder

theorem held (w : Watch) (es : List CapacityEvent) : w.Held es := by
  induction es with
  | nil => exact held_nil
  | cons e es ih =>
    cases e with
    | update b asOf now available percent => exact ih.update
    | confirm weight appliedAt =>
      exact ih.meanwhile rfl rfl rfl rfl (fun hinit => ⟨hinit, rfl, rfl⟩) (.inl (by rfl))
    | pend b id weight => exact ih.pend
    | drop failed =>
      cases failed <;> exact ih.meanwhile rfl rfl rfl rfl (fun hinit => ⟨hinit, rfl, rfl⟩)
        (.inr ⟨rfl, fun _ => ⟨rfl, rfl, rfl⟩⟩)

theorem phaseAt_reducing {c : CapacityControl} {r : CapacityRules} {asOf : Time}
    (h : c.phaseAt r asOf = .reducing) :
    c.pendingCommandID = "" ∧ (c.active = true → c.feedbackReady r asOf = true) ∧
      c.overSince.isZero = false ∧ Time.seconds r.overloadSeconds ≤ asOf - c.overSince := by
  revert h
  unfold phaseAt
  split_ifs <;> simp_all

/-- The latch is released on a chain of low samples, or because the limits are others. -/
theorem released_after_low (hactive : (w.control es).active = true)
    (hreleased : (w.control (.update b asOf now available percent :: es)).active = false) :
    ((w.control es).maxRPM ≠ b.maxRPM ∨ (w.control es).maxTPM ≠ b.maxTPM) ∨
    ∃ ts since, w.Chain w.low w.undisturbed (.update b asOf now available percent :: es) (asOf :: ts) ∧
      (asOf :: ts).getLast? = some since ∧
      Time.seconds w.rules.recoverySeconds ≤ asOf - since ∧
      (w.control (.update b asOf now available percent :: es)).feedbackReady w.rules since = true := by
  by_cases hlimits : (w.control es).maxRPM ≠ b.maxRPM ∨ (w.control es).maxTPM ≠ b.maxTPM
  · exact .inl hlimits
  have hsame : (w.control es).maxRPM = b.maxRPM ∧ (w.control es).maxTPM = b.maxTPM := by
    simpa [not_or] using hlimits
  have hconf : b.capacityConfigured = true := by
    have := ((w.held es).limited hactive).2
    simpa [BaseValue.capacityConfigured, ← hsame.1, ← hsame.2] using this
  have hlatched : (w.preparedAt es b asOf now).active = true :=
    (prepared_of_limits hsame.1 hsame.2).1.trans hactive
  cases hfreshAt : (w.control es).freshAt w.rules asOf now available with
  | false =>
    rw [control_stale hconf hfreshAt, stale, hlatched] at hreleased
    cases hreleased
  | true =>
    have hfresh : w.Fresh (w.control es) b asOf now available := ⟨hconf, hfreshAt⟩
    obtain ⟨raw, bound, heq⟩ := control_fresh hfresh percent
    have hafter : (w.sampledAt es b asOf now).active = false := by rw [heq] at hreleased; exact hreleased
    obtain ⟨-, hruns, hspan⟩ := sampled_released hfresh.nonzero
      (by simp [measured, hlatched]) hafter
    have hunder : (w.control (.update b asOf now available percent :: es)).underSince =
        (w.sampledAt es b asOf now).underSince := by rw [heq]
    obtain ⟨-, ⟨ts, hchain, hlast⟩, hready⟩ := (w.held (.update b asOf now available percent :: es)).low (by rw [hunder]; exact hruns)
    rw [control_sampleAt hfresh] at hchain hlast
    exact .inr ⟨ts, _, hchain, hlast, by rw [hunder]; exact hspan, hready⟩

/-- A weight is reduced on a chain of high samples. -/
theorem reducing_after_high
    (hreducing : (w.control (.update b asOf now available percent :: es)).phase = .reducing) :
    ∃ ts since, w.Chain high (fun _ _ => True) (.update b asOf now available percent :: es) (asOf :: ts) ∧
      (asOf :: ts).getLast? = some since ∧
      Time.seconds w.rules.overloadSeconds ≤ asOf - since ∧
      (w.control (.update b asOf now available percent :: es)).pendingCommandID = "" ∧
      ((w.control (.update b asOf now available percent :: es)).active = true →
        (w.control (.update b asOf now available percent :: es)).feedbackReady w.rules asOf = true) := by
  cases hconf : b.capacityConfigured with
  | false =>
    obtain ⟨weight, heq⟩ := control_uncapped w es asOf now available percent hconf
    rw [heq] at hreducing
    simp only [uncapped] at hreducing
    split_ifs at hreducing
  | true =>
    cases hfreshAt : (w.control es).freshAt w.rules asOf now available with
    | false =>
      rw [control_stale hconf hfreshAt] at hreducing
      cases hreducing
    | true =>
      have hfresh : w.Fresh (w.control es) b asOf now available := ⟨hconf, hfreshAt⟩
      obtain ⟨raw, bound, heq⟩ := control_fresh hfresh percent
      have hphase : (w.sampledAt es b asOf now).phaseAt w.rules asOf = .reducing := by
        rw [heq] at hreducing; exact hreducing
      obtain ⟨hpending, hready, hruns, hspan⟩ := phaseAt_reducing hphase
      have hover : (w.control (.update b asOf now available percent :: es)).overSince =
          (w.sampledAt es b asOf now).overSince := by rw [heq]
      obtain ⟨ts, hchain, hlast⟩ := (w.held (.update b asOf now available percent :: es)).high (by rw [hover]; exact hruns)
      rw [control_sampleAt hfresh] at hchain hlast
      refine ⟨ts, _, hchain, hlast, by rw [hover]; exact hspan, ?_, ?_⟩ <;> rw [heq]
      · exact hpending
      · exact hready

/-- **The latch is released, and a weight reduced, only on a chain of samples.**
Either the limits are others than before, or the release follows low samples that
span the recovery time, close together, with no stale evaluation and no change of
weight among them and no command on its way at any of them, the first of which is
late enough after the last confirmed write. A reduction follows high samples that
span the overload time, close together and with no stale evaluation among them, and
the last confirmed write has had its time. -/
theorem capacity_timing (w : Watch) (es : List CapacityEvent) (b : BaseValue) (asOf now : Time)
    (available : Bool) (percent : Rat) :
    let before := w.control es
    let after := w.control (.update b asOf now available percent :: es)
    (before.active = true → after.active = false →
      (before.maxRPM ≠ b.maxRPM ∨ before.maxTPM ≠ b.maxTPM) ∨
      ∃ ts since, w.Chain w.low w.undisturbed (.update b asOf now available percent :: es) (asOf :: ts) ∧
        (asOf :: ts).getLast? = some since ∧
        Time.seconds w.rules.recoverySeconds ≤ asOf - since ∧
        after.feedbackReady w.rules since = true) ∧
    (after.phase = .reducing →
      ∃ ts since, w.Chain high (fun _ _ => True) (.update b asOf now available percent :: es) (asOf :: ts) ∧
        (asOf :: ts).getLast? = some since ∧
        Time.seconds w.rules.overloadSeconds ≤ asOf - since ∧
        after.pendingCommandID = "" ∧ (after.active = true → after.feedbackReady w.rules asOf = true)) :=
  ⟨released_after_low, reducing_after_high⟩

/-! A command that ends between two samples without being applied goes unnoticed by
the release clock. -/

/-- A channel at its limit that falls to a tenth of it. -/
def relieved : Watch :=
  ⟨{}, fun asOf => if asOf = Time.seconds 1000 then (100, 0) else (10, 0), 5, readState none⟩

def limited : BaseValue := {baseWeight := 20, currentWeight := 20, snapshotAt := Time.seconds 900, maxRPM := 100}

/-- Two low samples with a command between them that was refused. -/
def interrupted : List CapacityEvent :=
  [.drop false, .pend limited "command" 15,
    .update limited (Time.seconds 1030) (Time.seconds 1040) true 25,
    .update limited (Time.seconds 1000) (Time.seconds 1010) true 25]

theorem released_despite_command :
    let release := CapacityEvent.update limited (Time.seconds 1090) (Time.seconds 1100) true 25
    (relieved.control interrupted).active = true ∧
      (relieved.control (release :: interrupted)).active = false ∧
      (relieved.control interrupted).maxRPM = limited.maxRPM ∧
      (relieved.control interrupted).maxTPM = limited.maxTPM ∧
      ¬∃ ts since, relieved.Chain relieved.low
          (fun e es => relieved.undisturbed e es ∧ (relieved.control (e :: es)).pendingCommandID = "")
          (release :: interrupted) (Time.seconds 1090 :: ts) ∧
        (Time.seconds 1090 :: ts).getLast? = some since ∧
        Time.seconds relieved.rules.recoverySeconds ≤ Time.seconds 1090 - since := by
  refine ⟨by decide +kernel, by decide +kernel, by decide +kernel, by decide +kernel, ?_⟩
  -- A chain that reaches back past the command would have it on its way.
  have hcut (ts : List Time) : ¬relieved.Chain relieved.low
      (fun e es => relieved.undisturbed e es ∧ (relieved.control (e :: es)).pendingCommandID = "")
      interrupted ts := by
    intro hchain
    cases hchain with
    | meanwhile hchain _ _ =>
      cases hchain with
      | meanwhile _ _ hcalm => exact absurd hcalm.2 (by decide +kernel)
  rintro ⟨ts, since, hchain, hlast, hspan⟩
  cases hchain with
  | first _ _ =>
    cases hlast
    exact absurd hspan (by decide +kernel)
  | next hchain _ _ _ _ _ => exact hcut _ hchain
  | again hchain _ _ => exact hcut _ hchain
  | meanwhile _ hupdate _ => cases hupdate

theorem capacity_timing_interrupted :
    let release := CapacityEvent.update limited (Time.seconds 1090) (Time.seconds 1100) true 25
    (relieved.control interrupted).active = true ∧
      (relieved.control (release :: interrupted)).active = false ∧
      ∃ ts since, relieved.Chain relieved.low relieved.undisturbed (release :: interrupted)
          (Time.seconds 1090 :: ts) ∧
        (Time.seconds 1090 :: ts).getLast? = some since ∧
        Time.seconds relieved.rules.recoverySeconds ≤ Time.seconds 1090 - since ∧
        (relieved.control (release :: interrupted)).feedbackReady relieved.rules since = true :=
  ⟨by decide +kernel, by decide +kernel,
    ((capacity_timing relieved interrupted limited (Time.seconds 1090) (Time.seconds 1100) true 25).1
      (by decide +kernel) (by decide +kernel)).resolve_left (by decide +kernel)⟩

end Watch
end ControlTower.Dispatch
