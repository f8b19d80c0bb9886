import ControlTower.Billing.Jobs
import Mathlib.Algebra.Order.BigOperators.Group.List
import Mathlib.Algebra.Order.Ring.Nat

/-! No billing job is left behind, unless a verification is cut off after its last step.

A job that goes on has as many open steps as its counters say. So either a step of it
can be claimed, or all are complete and it can be claimed to be published; a
verification alone is never published, and its last step is followed by two more
calls. While these are not cut off, every job that no call is at work on can be
claimed, and a worker whose calls succeed ends every job. -/
namespace ControlTower.Billing
open Data List Worker

/-! ### One job -/

namespace Job

def openSteps (j : Job) : Nat := j.steps.countP JobStep.isOpen

/-- Every step of a verification is complete, and its verdict is not written. -/
def awaitsVerdict (j : Job) : Bool :=
  j.active && j.jobType == .verify && decide (j.totalSteps ≤ j.completedSteps)

structure Going (j : Job) : Prop where
  counted : j.completedSteps + j.openSteps = j.totalSteps
  untouched : j.status = .pending → j.completedSteps = 0 ∧ ∀ t ∈ j.steps, t.status = .pending
  published : j.status = .publishing → j.openSteps = 0

structure Sound (j : Job) : Prop where
  scheduled : 0 < j.totalSteps ∨ (j.jobType ≠ .verify ∧ j.monthly = true ∧ 3 ≤ j.usageVersion)
  going : j.active → j.Going

variable {j : Job}

theorem active_iff : j.active ↔ j.status = .pending ∨ j.status = .running ∨ j.status = .publishing := by
  simp [active, or_assoc]

theorem Going.of_running (hr : j.status = .running)
    (hc : j.completedSteps + j.openSteps = j.totalSteps) : j.Going where
  counted := hc
  untouched h := by simp [hr] at h
  published h := by simp [hr] at h

/-- **A job that goes on can be claimed**, except for a verdict to write. -/
theorem Sound.claimable (hs : j.Sound) (ha : j.active) (hv : j.awaitsVerdict = false) :
    j.stepClaimable = true ∨ j.publishClaimable = true := by
  have hg := hs.going ha
  by_cases hd : j.totalSteps ≤ j.completedSteps
  · right
    have hverify : j.jobType ≠ .verify := by simpa [awaitsVerdict, ha, hd] using hv
    rcases active_iff.mp ha with hp | hp | hp
    · -- a pending job with all its steps complete has none
      have hzero : j.totalSteps = 0 := by
        have := (hg.untouched hp).1
        omega
      obtain ⟨-, hm, hu⟩ := hs.scheduled.resolve_left (by omega)
      simp [publishClaimable, hverify, hp, hm, hu, hd]
    · simp [publishClaimable, hverify, hp, hd]
    · simp [publishClaimable, hverify, hp, hd]
  · left
    have hopen : 0 < j.openSteps := by
      have := hg.counted
      omega
    have hany : j.steps.any JobStep.isOpen = true := any_eq_true.mpr (countP_pos_iff.mp hopen)
    rcases active_iff.mp ha with hp | hp | hp
    · simp [stepClaimable, hp, hany]
    · simp [stepClaimable, hp, hany]
    · exact absurd (hg.published hp) (by omega)

theorem countP_modify (p : JobStep → Bool) (f : JobStep → JobStep) (l : List JobStep) (n : Nat) {t : JobStep}
    (h : l[n]? = some t) :
    (l.modify n f).countP p + (if p t then 1 else 0) = l.countP p + if p (f t) then 1 else 0 := by
  induction l generalizing n with
  | nil => cases h
  | cons a l ih =>
    cases n with
    | zero =>
      cases h
      rw [modify_zero_cons, countP_cons, countP_cons]
      omega
    | succ n =>
      have := ih n h
      rw [modify_succ_cons, countP_cons, countP_cons]
      omega

variable {n : Nat}

theorem openSteps_setStep (j : Job) (f : JobStep → JobStep) {t : JobStep} (h : j.steps[n]? = some t) :
    (j.setStep n f).openSteps + (if t.isOpen then 1 else 0) = j.openSteps + if (f t).isOpen then 1 else 0 :=
  countP_modify JobStep.isOpen f j.steps n h

theorem stepIs_iff {status : StepStatus} :
    j.stepIs n status ↔ ∃ t, j.steps[n]? = some t ∧ t.status = status := by
  simp [stepIs, Option.any_eq_true]

/-- A step that is running is an open step of a job that runs, if the job goes on. -/
theorem Going.running_of_stepIs (hg : j.Going) (ha : j.active) (h : j.stepIs n .running) :
    j.status = .running ∧ ∃ t, j.steps[n]? = some t ∧ t.isOpen = true := by
  obtain ⟨t, ht, hr⟩ := stepIs_iff.mp h
  have hm : t ∈ j.steps := mem_of_getElem? ht
  have ho : t.isOpen = true := by simp [JobStep.isOpen, hr]
  refine ⟨?_, t, ht, ho⟩
  rcases active_iff.mp ha with hp | hp | hp
  · have := (hg.untouched hp).2 t hm
    simp [hr] at this
  · exact hp
  · have : 0 < j.openSteps := countP_pos_iff.mpr ⟨t, hm, ho⟩
    have := hg.published hp
    omega

/-! What each statement does to a job. -/

theorem Sound.created {id : String} {jobType : JobType} {usageVersion : Nat} {monthly : Bool} {steps : Nat}
    (h : 0 < steps ∨ (jobType ≠ .verify ∧ monthly = true ∧ 3 ≤ usageVersion)) :
    (Job.created id jobType usageVersion monthly steps).Sound where
  scheduled := h
  going := by
    intro _
    have hopen : (List.replicate steps (⟨.pending, 0⟩ : JobStep)).countP JobStep.isOpen = steps := by
      simp [countP_replicate, JobStep.isOpen]
    constructor
    · simpa [Job.created, openSteps] using hopen
    · intro _
      refine ⟨rfl, fun t ht => ?_⟩
      rw [(mem_replicate.mp ht).2]
    · intro h
      cases h

/-- A statement leaves the job as it was scheduled. -/
structure SameSchedule (i j : Job) : Prop where
  totalSteps : i.totalSteps = j.totalSteps
  jobType : i.jobType = j.jobType
  monthly : i.monthly = j.monthly
  usageVersion : i.usageVersion = j.usageVersion

theorem Sound.scheduled_of_same {i : Job} (hs : j.Sound) (h : i.SameSchedule j) :
    0 < i.totalSteps ∨ (i.jobType ≠ .verify ∧ i.monthly = true ∧ 3 ≤ i.usageVersion) := by
  rw [h.totalSteps, h.jobType, h.monthly, h.usageVersion]
  exact hs.scheduled

/-- What every statement but `CompleteBillingStep` makes of a job: it leaves it, ends it,
or lets it go on with the steps it has. -/
inductive Follows (j : Job) : Job → Prop
  | same : Follows j j
  | ended {i : Job} (schedule : i.SameSchedule j) (ended : i.active = false) : Follows j i
  | goesOn {i : Job} (schedule : i.SameSchedule j) (active : j.active) (active' : i.active) (going : i.Going)
    (completed : i.completedSteps = j.completedSteps) (opened : i.openSteps = j.openSteps) : Follows j i

theorem Follows.sound {i : Job} (h : j.Follows i) (hs : j.Sound) : i.Sound := by
  cases h with
  | same => exact hs
  | ended hi ha => exact ⟨hs.scheduled_of_same hi, fun h => by simp [ha] at h⟩
  | goesOn hi _ _ hg _ _ => exact ⟨hs.scheduled_of_same hi, fun _ => hg⟩

/-- Only `CompleteBillingStep` leaves a new verdict to write. -/
theorem Follows.awaitsVerdict {i : Job} (h : j.Follows i) (hv : i.awaitsVerdict) : j.awaitsVerdict := by
  cases h with
  | same => exact hv
  | ended _ ha => simp [Job.awaitsVerdict, ha] at hv
  | goesOn hi ha _ _ hc _ =>
    simp only [Job.awaitsVerdict, Bool.and_eq_true, hi.totalSteps, hc, hi.jobType] at hv ⊢
    exact ⟨⟨ha, hv.1.2⟩, hv.2⟩

theorem follows_cancelBillingJob (j : Job) : j.Follows j.cancelBillingJob := by
  unfold cancelBillingJob
  split
  · exact .ended ⟨rfl, rfl, rfl, rfl⟩ rfl
  · exact .same

theorem follows_superseded (j : Job) : j.Follows j.superseded := by
  unfold superseded
  split
  · exact .ended ⟨rfl, rfl, rfl, rfl⟩ rfl
  · exact .same

theorem follows_discarded (j : Job) : j.Follows j.discarded := by
  unfold discarded
  split
  · exact .ended ⟨rfl, rfl, rfl, rfl⟩ rfl
  · exact .same

theorem follows_finalizeBillingJob (j : Job) : j.Follows j.finalizeBillingJob := by
  unfold finalizeBillingJob
  split
  · exact .ended ⟨rfl, rfl, rfl, rfl⟩ rfl
  · exact .same

theorem follows_finalizeBillingVerification (j : Job) : j.Follows j.finalizeBillingVerification := by
  unfold finalizeBillingVerification
  split
  · exact .ended ⟨rfl, rfl, rfl, rfl⟩ rfl
  · exact .same

theorem publishClaimable_active (h : j.publishClaimable) : j.active := by
  simp only [publishClaimable, Bool.and_eq_true, Bool.or_eq_true, beq_iff_eq] at h
  rw [active_iff]
  tauto

theorem Sound.follows_claimPublish (hs : j.Sound) (hc : j.publishClaimable) (empty : Bool) :
    j.Follows (j.claimPublish empty) := by
  have ha := publishClaimable_active hc
  have hg := hs.going ha
  have hd : j.totalSteps ≤ j.completedSteps := by
    simp only [publishClaimable, Bool.and_eq_true, decide_eq_true_eq] at hc
    exact hc.2
  unfold Job.claimPublish
  split
  · exact .ended ⟨rfl, rfl, rfl, rfl⟩ rfl
  · refine .goesOn ⟨rfl, rfl, rfl, rfl⟩ ha rfl ⟨hg.counted, ?_, ?_⟩ rfl rfl
    · intro h
      cases h
    · intro _
      have := hg.counted
      show j.openSteps = 0
      omega

theorem Sound.follows_failBillingPublish (hs : j.Sound) : j.Follows j.failBillingPublish := by
  unfold Job.failBillingPublish
  split
  · rename_i hp
    have ha : j.active := by simp [active, hp]
    by_cases ht : j.publishAttempts < 3
    · simp only [ht, if_true]
      exact .goesOn ⟨rfl, rfl, rfl, rfl⟩ ha rfl (.of_running rfl (hs.going ha).counted) rfl rfl
    · simp only [ht, if_false]
      exact .ended ⟨rfl, rfl, rfl, rfl⟩ rfl
  · exact .same

theorem firstOpen_spec (hc : j.stepClaimable) : ∃ t, j.steps[j.firstOpen]? = some t ∧ t.isOpen = true := by
  have hany : j.steps.any JobStep.isOpen = true := by
    simp only [stepClaimable, Bool.and_eq_true] at hc
    exact hc.2
  have hlt : j.firstOpen < j.steps.length := findIdx_lt_length_of_exists (any_eq_true.mp hany)
  exact ⟨j.steps[j.firstOpen], List.getElem?_eq_getElem hlt, findIdx_getElem⟩

theorem stepClaimable_active (h : j.stepClaimable) : j.active := by
  simp only [stepClaimable, Bool.and_eq_true, Bool.or_eq_true, beq_iff_eq] at h
  rw [active_iff]
  tauto

theorem stepIs_claimStep (hc : j.stepClaimable) : (j.claimStep j.firstOpen).stepIs j.firstOpen .running := by
  obtain ⟨t, ht, -⟩ := firstOpen_spec hc
  simp [stepIs_iff, claimStep, setStep, ht]

theorem openSteps_claimStep (hc : j.stepClaimable) : (j.claimStep j.firstOpen).openSteps = j.openSteps := by
  obtain ⟨t, ht, ho⟩ := firstOpen_spec hc
  have h := openSteps_setStep j (fun s => { status := .running, attempts := s.attempts + 1 }) ht
  rw [if_pos ho, if_pos (by simp [JobStep.isOpen])] at h
  exact Nat.add_right_cancel h

theorem Sound.follows_claimStep (hs : j.Sound) (hc : j.stepClaimable) : j.Follows (j.claimStep j.firstOpen) := by
  have ha := stepClaimable_active hc
  have hopen := openSteps_claimStep hc
  refine .goesOn ⟨rfl, rfl, rfl, rfl⟩ ha rfl (.of_running rfl ?_) rfl hopen
  have := (hs.going ha).counted
  show j.completedSteps + (j.claimStep j.firstOpen).openSteps = j.totalSteps
  omega

/-- A step that stays open leaves a job that runs as it is. -/
theorem Sound.follows_setStep (hs : j.Sound) (ha : j.active) (h : j.stepIs n .running)
    {f : JobStep → JobStep} (hf : ∀ t, (f t).isOpen = true) : j.Follows { j.setStep n f with status := .running } := by
  have hg := hs.going ha
  obtain ⟨-, t, ht, ho⟩ := hg.running_of_stepIs ha h
  have hopen := openSteps_setStep j f ht
  simp only [ho, hf, if_true, Nat.add_right_cancel_iff] at hopen
  refine .goesOn ⟨rfl, rfl, rfl, rfl⟩ ha rfl (.of_running rfl ?_) rfl hopen
  exact (congrArg (j.completedSteps + ·) hopen).trans hg.counted

theorem Sound.follows_yieldBillingStep (hs : j.Sound) (n : Nat) : j.Follows (j.yieldBillingStep n) := by
  unfold Job.yieldBillingStep
  split
  · rename_i h
    have := hs.follows_setStep (f := fun s => { status := .pending, attempts := s.attempts - 1 }) (by simp [active, h.1]) h.2
      fun t => by simp [JobStep.isOpen]
    rwa [← h.1] at this
  · exact .same

theorem Sound.follows_failBillingStep (hs : j.Sound) (n : Nat) : j.Follows (j.failBillingStep n) := by
  unfold Job.failBillingStep
  split
  · rename_i h
    split
    · exact hs.follows_setStep (active_iff.mpr (by tauto)) h.2 fun t => by simp [JobStep.isOpen]
    · exact .ended ⟨rfl, rfl, rfl, rfl⟩ rfl
  · exact .same

/-- What `CompleteBillingStep` does to a job that goes on. -/
theorem Going.completeBillingStep (hg : j.Going) (ha : j.active) (h : j.stepIs n .running) :
    (j.completeBillingStep n).status = .running ∧
    (j.completeBillingStep n).completedSteps = j.completedSteps + 1 ∧
    (j.completeBillingStep n).openSteps + 1 = j.openSteps := by
  obtain ⟨hr, t, ht, ho⟩ := hg.running_of_stepIs ha h
  have hopen := openSteps_setStep j (fun s => { s with status := .complete }) ht
  rw [if_pos ho, if_neg (by simp [JobStep.isOpen])] at hopen
  have heq : j.completeBillingStep n =
      { j.setStep n (fun s => { s with status := .complete }) with completedSteps := j.completedSteps + 1 } := by
    simp [Job.completeBillingStep, h, hr]
  rw [heq]
  exact ⟨hr, rfl, hopen⟩

theorem completeBillingStep_fields (j : Job) (n : Nat) :
    (j.completeBillingStep n).SameSchedule j ∧ (j.completeBillingStep n).status = j.status := by
  simp only [Job.completeBillingStep]
  split <;> try split
  all_goals exact ⟨⟨rfl, rfl, rfl, rfl⟩, rfl⟩

theorem completeBillingStep_of_not (h : ¬ j.stepIs n .running) : j.completeBillingStep n = j := by
  simp [Job.completeBillingStep, h]

theorem active_completeBillingStep (j : Job) (n : Nat) : (j.completeBillingStep n).active = j.active := by
  simp [active, (completeBillingStep_fields j n).2]

theorem Sound.completeBillingStep (hs : j.Sound) (n : Nat) : (j.completeBillingStep n).Sound := by
  refine ⟨hs.scheduled_of_same (completeBillingStep_fields j n).1, fun ha => ?_⟩
  rw [active_completeBillingStep] at ha
  have hg := hs.going ha
  by_cases h : j.stepIs n .running
  · obtain ⟨hr, hc, ho⟩ := hg.completeBillingStep ha h
    refine .of_running hr ?_
    have := hg.counted
    rw [(completeBillingStep_fields j n).1.totalSteps]
    omega
  · rwa [completeBillingStep_of_not h]

theorem awaitsVerdict_finalizeBillingVerification (j : Job) :
    j.finalizeBillingVerification.awaitsVerdict = false := by
  unfold Job.finalizeBillingVerification
  split
  · rfl
  · rename_i hd
    simp [awaitsVerdict, hd]

theorem awaitsVerdict_created {id : String} {jobType : JobType} {usageVersion : Nat} {monthly : Bool} {steps : Nat}
    (h : 0 < steps ∨ jobType ≠ .verify) :
    (Job.created id jobType usageVersion monthly steps).awaitsVerdict = false := by
  rcases h with h | h
  · have : ¬ steps ≤ 0 := by omega
    simp [awaitsVerdict, Job.created, this]
  · simp [awaitsVerdict, Job.created, h]

end Job

/-! ### The system -/

/-- The worker is at the verdict of the job. -/
def Worker.concludes (id : String) : Worker → Bool
  | .verified i _ | .finalizing i _ => i == id
  | _ => false

theorem Worker.on_of_concludes {w : Worker} {id : String} (h : w.concludes id) : w.on id := by
  cases w <;> simp_all [concludes, on]

namespace System

/-- The worker is at a verdict that is to be written. -/
def concluding (s : System) : Bool :=
  match s.worker with
  | .verified id _ | .finalizing id _ => (s.jobs.find id).any Job.awaitsVerdict
  | _ => false

/-- The worker is at the last step of a verification. -/
def atLastStep (s : System) : Bool :=
  match s.worker with
  | .working id _ =>
    (s.jobs.find id).any fun j => j.jobType == .verify && decide (j.totalSteps ≤ j.completedSteps + 1)
  | _ => false

/-- A job is created with a step to claim, or as a month that needs none; and a
verification is not cut off from its last step on until the verdict is written. -/
def uninterrupted (s : System) : JobEvent → Bool
  | .create _ jobType usageVersion monthly steps =>
    decide (0 < steps) || (jobType != .verify && monthly && decide (3 ≤ usageVersion))
  | .completeStep .lost => !s.atLastStep
  | .readJob call => call.reports || !s.concluding
  | .finalizeVerification call => call.commits || !s.concluding
  | .stop => !s.concluding
  | _ => true

def Uninterrupted (s : System) : List JobEvent → Prop
  | [] => True
  | e :: events => s.uninterrupted e = true ∧ (s.step e).Uninterrupted events

instance (s : System) (events : List JobEvent) : Decidable (s.Uninterrupted events) := by
  induction events generalizing s with
  | nil => exact .isTrue trivial
  | cons e events ih =>
    have := ih (s.step e)
    exact inferInstanceAs (Decidable (_ ∧ _))

structure Sound (s : System) : Prop where
  jobs : ∀ j ∈ s.jobs, j.Sound
  verdicts : ∀ j ∈ s.jobs, j.awaitsVerdict → s.worker.concludes j.id

theorem mem_write {s : System} {call : Call} {id : String} {f : Job → Job} {h : ∀ j, (f j).id = j.id} {w : Worker}
    {j : Job} :
    j ∈ (s.write call id f h w).jobs ↔ ∃ i ∈ s.jobs, (if i.id = id ∧ call.commits then f i else i) = j := by
  simp only [write, Table.mem_modify]

section
variable {s : System} {call : Call} {id : String} {f : Job → Job} {h : ∀ j, (f j).id = j.id} {w : Worker}

/-- What a statement on one job has to keep. -/
theorem Sound.write (hs : s.Sound) (hf : ∀ i ∈ s.jobs, i.id = id → i.Sound → (f i).Sound)
    (hv : ∀ i ∈ s.jobs, i.id = id → call.commits → (f i).awaitsVerdict → w.concludes id)
    (hw : ∀ i ∈ s.jobs, ¬ (i.id = id ∧ call.commits) → i.awaitsVerdict → s.worker.concludes i.id →
      w.concludes i.id) :
    (s.write call id f h w).Sound := by
  constructor
  · intro j hj
    obtain ⟨i, hi, rfl⟩ := mem_write.mp hj
    split
    · rename_i hc
      exact hf i hi hc.1 (hs.jobs i hi)
    · exact hs.jobs i hi
  · intro j hj ha
    obtain ⟨i, hi, rfl⟩ := mem_write.mp hj
    split at ha
    · rename_i hc
      rw [if_pos hc, h, hc.1]
      exact hv i hi hc.1 hc.2 ha
    · rename_i hc
      rw [if_neg hc]
      exact hw i hi hc ha (hs.verdicts i hi ha)

/-- A statement that leaves no new verdict, by a worker that goes on with the one it is at. -/
theorem Sound.write_of_follows (hs : s.Sound) (hf : ∀ i ∈ s.jobs, i.id = id → i.Sound → i.Follows (f i))
    (hw : ∀ i, s.worker.concludes i → w.concludes i) : (s.write call id f h w).Sound := by
  refine hs.write (fun i hi hid hsound => (hf i hi hid hsound).sound hsound) ?_ fun i _ _ _ => hw i.id
  intro i hi hid _ ha
  exact hid ▸ hw i.id (hs.verdicts i hi ((hf i hi hid (hs.jobs i hi)).awaitsVerdict ha))

end

variable {s : System} {j : Job}

/-- The worker is at the only verdict there is to write. -/
theorem Sound.concluding_of_awaits (hs : s.Sound) (hj : j ∈ s.jobs) (ha : j.awaitsVerdict) :
    s.concluding = true := by
  have hw := hs.verdicts j hj ha
  have hfind : s.jobs.find j.id = some j := Table.find_eq_some.mpr ⟨hj, rfl⟩
  unfold concluding
  cases hs : s.worker <;> simp_all [concludes]

theorem Sound.worker_of_not_concluding (hs : s.Sound) (h : s.concluding = false) (w : Worker) :
    ({ s with worker := w } : System).Sound where
  jobs := hs.jobs
  verdicts j hj ha := by
    have := hs.concluding_of_awaits hj ha
    simp [h] at this

theorem Sound.create (hs : s.Sound) (hj : j.Sound) (ha : j.awaitsVerdict = false) : (s.create j).Sound := by
  unfold System.create
  split
  · rename_i hnew
    constructor
    · intro i hi
      rcases (Table.mem_append (h := hnew)).mp hi with hi | rfl
      · exact hs.jobs i hi
      · exact hj
    · intro i hi hv
      rcases (Table.mem_append (h := hnew)).mp hi with hi | rfl
      · exact hs.verdicts i hi hv
      · simp [ha] at hv
  · exact hs

theorem mem_of_find {p : Job → Bool} (h : s.jobs.rows.find? p = some j) :
    j ∈ s.jobs ∧ p j = true := ⟨mem_of_find?_eq_some h, List.find?_some h⟩

theorem eq_of_id {i j : Job} (hi : i ∈ s.jobs) (hj : j ∈ s.jobs) (h : i.id = j.id) : i = j :=
  Table.eq_of_key hi hj h

variable {call : Call}

/-- `CompleteBillingStep` by a worker that goes on to the verdict. -/
theorem Sound.step_completeStep (hs : s.Sound)
    (hu : s.uninterrupted (.completeStep call)) : (s.step (.completeStep call)).Sound := by
  simp only [System.step]
  split
  case h_2 => exact hs
  rename_i id n hw
  refine hs.write (fun i _ _ hi => hi.completeBillingStep n) ?_ ?_
  · intro i hi hid hc ha
    have hsame := (Job.completeBillingStep_fields i n).1
    have hfind : s.jobs.find id = some i := Table.find_eq_some.mpr ⟨hi, hid⟩
    simp only [Job.awaitsVerdict, Bool.and_eq_true, beq_iff_eq, decide_eq_true_eq, hsame.jobType, hsame.totalSteps] at ha
    obtain ⟨⟨-, hverify⟩, hdone⟩ := ha
    cases call with
    | failed => cases hc
    | ok =>
      have hv : s.isVerification id = true := by simp [isVerification, hfind, hverify]
      simp [Call.reports, hv, concludes]
    | lost =>
      -- the call completed the last step, which the condition leaves out
      have hlast : i.totalSteps ≤ i.completedSteps + 1 := by
        refine le_trans hdone ?_
        simp only [Job.completeBillingStep]
        split <;> try split
        all_goals simp [Job.setStep]
      simp [uninterrupted, atLastStep, hw, hfind, hverify, hlast] at hu
  · intro i _ _ _ hc
    simp [hw, concludes] at hc

/-- `FinalizeBillingVerification`: when it commits, no verdict is left to write. -/
theorem Sound.step_finalizeVerification (hs : s.Sound)
    (hu : s.uninterrupted (.finalizeVerification call)) : (s.step (.finalizeVerification call)).Sound := by
  simp only [System.step]
  split
  case h_2 => exact hs
  rename_i id n hw
  refine hs.write (fun i _ _ hi => i.follows_finalizeBillingVerification.sound hi) ?_ ?_
  · intro i _ _ _ ha
    simp [Job.awaitsVerdict_finalizeBillingVerification] at ha
  · intro i hi hc ha hcon
    exfalso
    have hid : id = i.id := by simpa [hw, concludes] using hcon
    have hcommit : call.commits = false := by simpa [← hid] using hc
    have := hs.concluding_of_awaits hi ha
    simp [uninterrupted, hcommit, this] at hu

/-- `BillingJob` after a step of a verification. -/
theorem Sound.step_readJob (hs : s.Sound) (hu : s.uninterrupted (.readJob call)) :
    (s.step (.readJob call)).Sound := by
  simp only [System.step]
  split
  case h_2 => exact hs
  rename_i id n hw
  refine ⟨hs.jobs, fun j hj ha => ?_⟩
  have hid : id = j.id := by simpa [hw, concludes] using hs.verdicts j hj ha
  have hr : call.reports = true := by simpa [uninterrupted, hs.concluding_of_awaits hj ha] using hu
  have hd : s.stepsDone id = true := by
    have hfind : s.jobs.find id = some j := Table.find_eq_some.mpr ⟨hj, hid.symm⟩
    simp only [Job.awaitsVerdict, Bool.and_eq_true] at ha
    simp [stepsDone, hfind, of_decide_eq_true ha.2]
  simp only [hr, hd, Bool.not_true, Bool.false_eq_true, if_false, if_true]
  simp [concludes, hid]

/-- **One event.** -/
theorem Sound.step (hs : s.Sound) {e : JobEvent} (hu : s.uninterrupted e) : (s.step e).Sound := by
  cases e with
  | create id jobType usageVersion monthly steps =>
    have hj : 0 < steps ∨ (jobType ≠ .verify ∧ monthly = true ∧ 3 ≤ usageVersion) := by
      simpa [uninterrupted, and_assoc] using hu
    exact hs.create (.created hj) (Job.awaitsVerdict_created (hj.imp_right And.left))
  | cancel id => exact hs.write_of_follows (h := Job.cancelBillingJob_id) (fun i _ _ _ => i.follows_cancelBillingJob) fun _ h => h
  | supersede id => exact hs.write_of_follows (h := Job.superseded_id) (fun i _ _ _ => i.follows_superseded) fun _ h => h
  | claimPublish empty call =>
    simp only [System.step]
    split
    case h_2 => exact hs
    rename_i j hw hj
    obtain ⟨hm, hc⟩ := mem_of_find hj
    refine hs.write_of_follows (fun i hi hid hsound => ?_) (by simp [hw, concludes])
    exact hsound.follows_claimPublish (eq_of_id hi hm hid ▸ hc) empty
  | publish call =>
    simp only [System.step]
    split
    case h_2 => exact hs
    rename_i id hw
    exact hs.write_of_follows (fun i _ _ _ => i.follows_finalizeBillingJob) (by simp [hw, concludes])
  | discard call =>
    simp only [System.step]
    split
    case h_2 => exact hs
    rename_i id hw
    exact hs.write_of_follows (fun i _ _ _ => i.follows_discarded) (by simp [hw, concludes])
  | failPublish call =>
    simp only [System.step]
    split
    case h_2 => exact hs
    rename_i id hw
    exact hs.write_of_follows (fun _ _ _ hi => hi.follows_failBillingPublish) (by simp [hw, concludes])
  | claimStep call =>
    simp only [System.step]
    split
    case h_2 => exact hs
    rename_i j hw hj
    obtain ⟨hm, hc⟩ := mem_of_find hj
    refine hs.write_of_follows (fun i hi hid hsound => ?_) (by simp [hw, concludes])
    exact hsound.follows_claimStep (eq_of_id hi hm hid ▸ hc)
  | breakOff =>
    simp only [System.step]
    split
    case h_2 => exact hs
    rename_i id n hw
    exact hs.worker_of_not_concluding (by simp [concluding, hw]) _
  | yield call =>
    simp only [System.step]
    split
    case h_2 => exact hs
    rename_i id n hw
    exact hs.write_of_follows (fun _ _ _ hi => hi.follows_yieldBillingStep n) (by simp [hw, concludes])
  | completeStep call => exact hs.step_completeStep hu
  | failStep call =>
    simp only [System.step]
    split
    case h_2 => exact hs
    rename_i id n hw
    exact hs.write_of_follows (fun _ _ _ hi => hi.follows_failBillingStep n) (by simp [hw, concludes])
  | readJob call => exact hs.step_readJob hu
  | finalizeVerification call => exact hs.step_finalizeVerification hu
  | stop => exact hs.worker_of_not_concluding (by simpa [uninterrupted] using hu) _

theorem Sound.empty : System.empty.Sound where
  jobs j hj := by cases hj
  verdicts j hj := by cases hj

/-- **A run.** -/
theorem Sound.run (hs : s.Sound) {events : List JobEvent} (hu : s.Uninterrupted events) :
    (s.run events).Sound := by
  induction events generalizing s with
  | nil => exact hs
  | cons e events ih => exact ih (hs.step hu.1) hu.2

/-- A job that no call is at work on can be claimed. -/
theorem Sound.claimable (hs : s.Sound) (hj : j ∈ s.jobs) (ha : j.active)
    (hw : s.worker.on j.id = false) : j.stepClaimable = true ∨ j.publishClaimable = true := by
  refine (hs.jobs j hj).claimable ha ?_
  cases hv : j.awaitsVerdict with
  | false => rfl
  | true =>
    have := on_of_concludes (hs.verdicts j hj hv)
    simp [hw] at this

end System

/-! ### A worker whose calls succeed -/

namespace Job

/-- What is left to do for a job. -/
def weight (j : Job) : Nat := if j.active then 1 + j.openSteps else 0

/-- It goes on, or has ended in `complete`, `failed` or `no_data`. -/
def live (j : Job) : Bool := j.active || j.final

variable {j : Job}

theorem weight_of_ended (h : j.active = false) : j.weight = 0 := by
  simp [weight, h]

theorem weight_of_active (h : j.active) : j.weight = 1 + j.openSteps := by
  simp [weight, h]

theorem Follows.weight_le {i : Job} (h : j.Follows i) : i.weight ≤ j.weight := by
  cases h with
  | same => rfl
  | ended _ ha =>
    rw [weight_of_ended ha]
    exact Nat.zero_le _
  | goesOn _ ha ha' _ _ ho => rw [weight_of_active ha, weight_of_active ha', ho]

theorem weight_finalizeBillingJob_lt (ha : j.active) (hd : j.totalSteps ≤ j.completedSteps) :
    j.finalizeBillingJob.weight < j.weight := by
  rw [finalizeBillingJob, if_pos ⟨ha, hd⟩, weight_of_ended rfl, weight_of_active ha]
  omega

theorem weight_completeBillingStep_lt (hs : j.Sound) (ha : j.active) {n : Nat} (h : j.stepIs n .running) :
    (j.completeBillingStep n).weight < j.weight := by
  obtain ⟨-, -, ho⟩ := (hs.going ha).completeBillingStep ha h
  rw [weight_of_active ha, weight_of_active (by rw [active_completeBillingStep, ha])]
  omega

theorem weight_completeBillingStep_le (hs : j.Sound) (n : Nat) :
    (j.completeBillingStep n).weight ≤ j.weight := by
  by_cases h : j.stepIs n .running
  · cases ha : j.active with
    | true => exact (weight_completeBillingStep_lt hs ha h).le
    | false => rw [weight_of_ended (by rw [active_completeBillingStep, ha])]; omega
  · rw [completeBillingStep_of_not h]

theorem live_of_active (h : j.active) : j.live := by
  simp [live, h]

theorem live_claimPublish (j : Job) : (j.claimPublish false).live := by
  simp [claimPublish, live, active]

theorem live_finalizeBillingJob (h : j.live) : j.finalizeBillingJob.live := by
  unfold finalizeBillingJob
  split
  · rfl
  · exact h

theorem live_failBillingPublish (h : j.live) : j.failBillingPublish.live := by
  unfold failBillingPublish
  split
  · split <;> rfl
  · exact h

theorem live_completeBillingStep {n : Nat} (h : j.live) : (j.completeBillingStep n).live := by
  simpa [live, active, final, (completeBillingStep_fields j n).2] using h

theorem live_failBillingStep {n : Nat} (h : j.live) : (j.failBillingStep n).live := by
  unfold failBillingStep
  split
  · split <;> rfl
  · exact h

theorem live_finalizeBillingVerification (h : j.live) : j.finalizeBillingVerification.live := by
  unfold finalizeBillingVerification
  split
  · rfl
  · exact h

end Job

/-- A call of the worker that succeeds. -/
inductive JobEvent.Succeeds : JobEvent → Prop
  | claimPublish : Succeeds (.claimPublish false .ok)
  | publish : Succeeds (.publish .ok)
  | failPublish : Succeeds (.failPublish .ok)
  | claimStep : Succeeds (.claimStep .ok)
  | completeStep : Succeeds (.completeStep .ok)
  | failStep : Succeeds (.failStep .ok)
  | readJob : Succeeds (.readJob .ok)
  | finalizeVerification : Succeeds (.finalizeVerification .ok)

namespace System

def weight (s : System) : Nat := (s.jobs.rows.map Job.weight).sum

theorem uninterrupted_of_succeeds (s : System) {e : JobEvent} (h : e.Succeeds) : s.uninterrupted e = true := by
  cases h <;> rfl

section
variable {s : System} {call : Call} {id : String} {f : Job → Job} {h : ∀ j, (f j).id = j.id} {w : Worker}

theorem weight_write_le (hf : ∀ i ∈ s.jobs, i.id = id → (f i).weight ≤ i.weight) :
    (s.write call id f h w).weight ≤ s.weight := by
  simp only [weight, System.write, Table.modify, map_map]
  refine sum_le_sum fun i hi => ?_
  simp only [Function.comp_apply]
  split
  · rename_i hc
    exact hf i hi hc.1
  · rfl

theorem weight_write_lt (hf : ∀ i ∈ s.jobs, i.id = id → (f i).weight ≤ i.weight) {j : Job} (hj : j ∈ s.jobs)
    (hid : j.id = id) (hc : call.commits) (hlt : (f j).weight < j.weight) :
    (s.write call id f h w).weight < s.weight := by
  simp only [weight, System.write, Table.modify, map_map]
  refine sum_lt_sum _ _ (fun i hi => ?_) ⟨j, hj, ?_⟩
  · simp only [Function.comp_apply]
    split
    · rename_i hc
      exact hf i hi hc.1
    · rfl
  · simpa [hid, hc] using hlt

end

/-- The rows after a call: as they were, or one of them written over with no more left to do. -/
inductive Lightens (s : System) : System → Prop
  | same {t : System} (h : t.jobs = s.jobs) : Lightens s t
  | write {id : String} {f : Job → Job} {h : ∀ j, (f j).id = j.id} {w : Worker}
    (weight : ∀ i ∈ s.jobs, i.id = id → i.Sound → (f i).weight ≤ i.weight)
    (live : ∀ i, i.live → (f i).live) : Lightens s (s.write .ok id f h w)

/-- **No successful call adds to what is left to do.** -/
theorem step_lightens (s : System) {e : JobEvent} (h : e.Succeeds) : s.Lightens (s.step e) := by
  cases h with
  | claimPublish =>
    simp only [System.step]
    split
    · rename_i j _ hj
      obtain ⟨hm, hc⟩ := mem_of_find hj
      refine .write ?_ fun i _ => i.live_claimPublish
      intro i hi hid hs
      exact (hs.follows_claimPublish (eq_of_id hi hm hid ▸ hc) false).weight_le
    · exact .same rfl
  | publish =>
    simp only [System.step]
    split
    · exact .write (fun i _ _ _ => i.follows_finalizeBillingJob.weight_le) fun _ => Job.live_finalizeBillingJob
    · exact .same rfl
  | failPublish =>
    simp only [System.step]
    split
    · exact .write (fun _ _ _ hs => hs.follows_failBillingPublish.weight_le) fun _ => Job.live_failBillingPublish
    · exact .same rfl
  | claimStep =>
    simp only [System.step]
    split
    · rename_i j _ hj
      obtain ⟨hm, hc⟩ := mem_of_find hj
      refine .write ?_ fun i _ => rfl
      intro i hi hid hs
      exact (hs.follows_claimStep (eq_of_id hi hm hid ▸ hc)).weight_le
    · exact .same rfl
  | completeStep =>
    simp only [System.step]
    split
    · exact .write (fun i _ _ hs => Job.weight_completeBillingStep_le hs _) fun _ => Job.live_completeBillingStep
    · exact .same rfl
  | failStep =>
    simp only [System.step]
    split
    · exact .write (fun _ _ _ hs => (hs.follows_failBillingStep _).weight_le) fun _ => Job.live_failBillingStep
    · exact .same rfl
  | readJob =>
    simp only [System.step]
    split <;> exact .same rfl
  | finalizeVerification =>
    simp only [System.step]
    split
    · exact .write (fun i _ _ _ => i.follows_finalizeBillingVerification.weight_le) fun _ => Job.live_finalizeBillingVerification
    · exact .same rfl

theorem Lightens.weight_le {s t : System} (h : s.Lightens t) (hs : s.Sound) : t.weight ≤ s.weight := by
  cases h with
  | same h => simp [weight, h]
  | write hw _ => exact weight_write_le fun i hi hid => hw i hi hid (hs.jobs i hi)

/-- The job is there, and goes on or has ended well or badly. -/
def Tracks (s : System) (id : String) : Prop := ∃ j ∈ s.jobs, j.id = id ∧ j.live

theorem Lightens.tracks {s t : System} (h : s.Lightens t) {key : String} (ht : s.Tracks key) : t.Tracks key := by
  obtain ⟨j, hj, hid, hl⟩ := ht
  cases h with
  | same h => exact ⟨j, h ▸ hj, hid, hl⟩
  | @write _ _ hkey _ _ hlive =>
    refine ⟨_, mem_write.mpr ⟨j, hj, rfl⟩, ?_, ?_⟩
    · split
      · rw [hkey, hid]
      · exact hid
    · split
      · exact hlive j hl
      · exact hl

theorem run_append (s : System) (a b : List JobEvent) : s.run (a ++ b) = (s.run a).run b := foldl_append

variable {s : System}

/-- What holds after any number of successful calls. -/
theorem Sound.run_of_succeeds (hs : s.Sound) {events : List JobEvent} (h : ∀ e ∈ events, e.Succeeds) :
    (s.run events).Sound ∧ (s.run events).weight ≤ s.weight ∧
      ∀ key, s.Tracks key → (s.run events).Tracks key := by
  induction events generalizing s with
  | nil => exact ⟨hs, le_refl _, fun _ ht => ht⟩
  | cons e events ih =>
    have he : e.Succeeds := h e mem_cons_self
    obtain ⟨h1, h2, h3⟩ := ih (hs.step (s.uninterrupted_of_succeeds he)) fun e he => h e (mem_cons_of_mem _ he)
    have hl := s.step_lightens he
    exact ⟨h1, h2.trans (hl.weight_le hs), fun key ht => h3 key (hl.tracks ht)⟩

/-- The calls after a step of a verification. -/
def concluded : List JobEvent := [.readJob .ok, .finalizeVerification .ok]

/-- The calls that end what the worker is at. -/
def ending : List JobEvent := [.publish .ok, .failPublish .ok, .completeStep .ok, .failStep .ok] ++ concluded

def publishing : List JobEvent := [.claimPublish false .ok, .publish .ok]

def stepping : List JobEvent := [.claimStep .ok, .completeStep .ok]

/-- One `RunOnce`, to publish a job or to take a step. -/
def turn : List JobEvent := publishing ++ (stepping ++ concluded)

theorem concluded_succeeds : ∀ e ∈ concluded, e.Succeeds := by
  simp [concluded, JobEvent.Succeeds.readJob, JobEvent.Succeeds.finalizeVerification]

theorem publishing_succeeds : ∀ e ∈ publishing, e.Succeeds := by
  simp [publishing, JobEvent.Succeeds.claimPublish, JobEvent.Succeeds.publish]

theorem stepping_succeeds : ∀ e ∈ stepping, e.Succeeds := by
  simp [stepping, JobEvent.Succeeds.claimStep, JobEvent.Succeeds.completeStep]

theorem turn_succeeds : ∀ e ∈ turn, e.Succeeds := by
  intro e he
  simp only [turn, mem_append] at he
  rcases he with he | he | he
  · exact publishing_succeeds e he
  · exact stepping_succeeds e he
  · exact concluded_succeeds e he

theorem ending_succeeds : ∀ e ∈ ending, e.Succeeds := by
  simp [ending, concluded, JobEvent.Succeeds.publish, JobEvent.Succeeds.failPublish, JobEvent.Succeeds.completeStep,
    JobEvent.Succeeds.failStep, JobEvent.Succeeds.readJob, JobEvent.Succeeds.finalizeVerification]

/-- The worker has no call to make, or those of a verification. -/
inductive Resting : Worker → Prop
  | idle : Resting .idle
  | verified {id : String} {n : Nat} : Resting (.verified id n)
  | finalizing {id : String} {n : Nat} : Resting (.finalizing id n)

theorem concluded_idle (h : Resting s.worker) : (s.run concluded).worker = .idle := by
  simp only [run, concluded, foldl_cons, foldl_nil]
  generalize hw : s.worker = w at h
  cases h with
  | idle => simp [System.step, hw]
  | @verified id n => by_cases hd : s.stepsDone id <;> simp [System.step, hw, hd, System.write, Call.reports]
  | finalizing => simp [System.step, hw, System.write, Call.reports]

theorem step_completeStep_resting {id : String} {n : Nat} (hw : s.worker = .working id n) :
    Resting (s.step (.completeStep .ok)).worker := by
  by_cases hv : s.isVerification id
  · simp [System.step, hw, System.write, Call.reports, hv, Resting.verified]
  · simp [System.step, hw, System.write, Call.reports, hv, Resting.idle]

theorem step_failStep_of_resting (h : Resting s.worker) : s.step (.failStep .ok) = s := by
  generalize hw : s.worker = w at h
  cases h <;> simp [System.step, hw]

theorem ending_idle (s : System) : (s.run ending).worker = .idle := by
  rw [ending, run_append]
  apply concluded_idle
  simp only [run, foldl_cons, foldl_nil]
  cases hw : s.worker with
  | idle => simp [System.step, hw, Resting.idle]
  | publishing id => simp [System.step, hw, System.write, Call.reports, Resting.idle]
  | publishFailed id => simp [System.step, hw, System.write, Resting.idle]
  | working id n =>
    have h1 : s.step (.publish .ok) = s := by simp [System.step, hw]
    have h2 : s.step (.failPublish .ok) = s := by simp [System.step, hw]
    have hr := step_completeStep_resting hw
    rw [h1, h2, step_failStep_of_resting hr]
    exact hr
  | workFailed id n => simp [System.step, hw, System.write, Resting.idle]
  | verified id n => simp [System.step, hw, Resting.verified]
  | finalizing id n => simp [System.step, hw, Resting.finalizing]

/-- A job that can be published is, by the next two calls. -/
theorem Sound.publishing (hs : s.Sound) (hw : s.worker = .idle) : (s.run System.publishing).worker = .idle ∧
    ((s.run System.publishing).weight < s.weight ∨
      (s.run System.publishing = s ∧ ∀ j ∈ s.jobs, j.publishClaimable = false)) := by
  simp only [System.run, System.publishing, foldl_cons, foldl_nil]
  cases hf : s.jobs.rows.find? Job.publishClaimable with
  | none =>
    have h1 : s.step (.claimPublish false .ok) = s := by simp [System.step, hw, hf]
    have h2 : s.step (.publish .ok) = s := by simp [System.step, hw]
    rw [h1, h2]
    refine ⟨hw, .inr ⟨rfl, fun j hj => ?_⟩⟩
    simpa using List.find?_eq_none.mp hf j hj
  | some j =>
    obtain ⟨hm, hc⟩ := mem_of_find hf
    have h1 : s.step (.claimPublish false .ok) = s.write .ok j.id (·.claimPublish false) (Job.claimPublish_id false)
        (.publishing j.id) := by
      simp [System.step, hw, hf, Call.reports, Job.claimPublish]
    have hle := (s.step_lightens .claimPublish).weight_le hs
    have hw1 : (s.step (.claimPublish false .ok)).worker = .publishing j.id := by rw [h1, System.write]
    have hj1 : j.claimPublish false ∈ (s.step (.claimPublish false .ok)).jobs := by
      rw [h1, mem_write]
      exact ⟨j, hm, if_pos ⟨rfl, rfl⟩⟩
    generalize s.step (.claimPublish false .ok) = t at hle hw1 hj1
    have hd : j.totalSteps ≤ j.completedSteps := by
      simp only [Job.publishClaimable, Bool.and_eq_true, decide_eq_true_eq] at hc
      exact hc.2
    have hlt : (j.claimPublish false).finalizeBillingJob.weight < (j.claimPublish false).weight := by
      apply Job.weight_finalizeBillingJob_lt
      · simp [Job.claimPublish, Job.active]
      · simpa [Job.claimPublish] using hd
    simp only [System.step, hw1]
    refine ⟨rfl, .inl (lt_of_lt_of_le ?_ hle)⟩
    exact weight_write_lt (fun i _ _ => i.follows_finalizeBillingJob.weight_le) hj1 (Job.claimPublish_id false j) rfl hlt

/-- And a step that can be claimed is completed. -/
theorem Sound.stepping (hs : s.Sound) (hw : s.worker = .idle) : Resting (s.run System.stepping).worker ∧
    ((s.run System.stepping).weight < s.weight ∨ ∀ j ∈ s.jobs, j.stepClaimable = false) := by
  simp only [System.run, System.stepping, foldl_cons, foldl_nil]
  cases hf : s.jobs.rows.find? Job.stepClaimable with
  | none =>
    have h1 : s.step (.claimStep .ok) = s := by simp [System.step, hw, hf]
    rw [h1]
    refine ⟨by simp [System.step, hw, Resting.idle], .inr fun j hj => ?_⟩
    simpa using List.find?_eq_none.mp hf j hj
  | some j =>
    obtain ⟨hm, hc⟩ := mem_of_find hf
    have hle := (s.step_lightens .claimStep).weight_le hs
    have hs1 := hs.step (s.uninterrupted_of_succeeds .claimStep)
    have hw1 : (s.step (.claimStep .ok)).worker = .working j.id j.firstOpen := by
      simp [System.step, hw, hf, System.write, Call.reports]
    have hj1 : j.claimStep j.firstOpen ∈ (s.step (.claimStep .ok)).jobs := by
      simp only [System.step, hw, hf]
      exact mem_write.mpr ⟨j, hm, if_pos ⟨rfl, rfl⟩⟩
    generalize s.step (.claimStep .ok) = t at hle hs1 hw1 hj1
    refine ⟨step_completeStep_resting hw1, .inl (lt_of_lt_of_le ?_ hle)⟩
    simp only [System.step, hw1]
    refine weight_write_lt (fun i hi _ => Job.weight_completeBillingStep_le (hs1.jobs i hi) _) hj1 rfl rfl ?_
    exact Job.weight_completeBillingStep_lt (hs1.jobs _ hj1) rfl (Job.stepIs_claimStep hc)

/-- **One `RunOnce` leaves less to do**, while there is a job that goes on. -/
theorem Sound.turn (hs : s.Sound) (hw : s.worker = .idle) : (s.run System.turn).worker = .idle ∧
    ((∃ j ∈ s.jobs, j.active) → (s.run System.turn).weight < s.weight) := by
  obtain ⟨hw1, h1⟩ := hs.publishing hw
  obtain ⟨hs1, -, -⟩ := hs.run_of_succeeds publishing_succeeds
  obtain ⟨hr2, h2⟩ := hs1.stepping hw1
  obtain ⟨hs2, hle2, -⟩ := hs1.run_of_succeeds stepping_succeeds
  obtain ⟨-, hle3, -⟩ := hs2.run_of_succeeds concluded_succeeds
  rw [System.turn, run_append, run_append]
  refine ⟨concluded_idle hr2, ?_⟩
  rintro ⟨j, hj, ha⟩
  rcases h1 with hlt | ⟨hsame, hnone⟩
  · exact lt_of_le_of_lt (hle3.trans hle2) hlt
  · rw [hsame] at h2 hle3 ⊢
    rcases h2 with hlt | hnone'
    · exact lt_of_le_of_lt hle3 hlt
    · have hon : s.worker.on j.id = false := by rw [hw, on]
      rcases hs.claimable hj ha hon with hc | hc
      · simp [hnone' j hj] at hc
      · simp [hnone j hj] at hc

/-- From an idle worker, turns that succeed end every job. -/
theorem Sound.settles (hs : s.Sound) (hw : s.worker = .idle) :
    ∃ more, (∀ e ∈ more, JobEvent.Succeeds e) ∧ ∀ j ∈ (s.run more).jobs, j.active = false := by
  induction hn : s.weight using Nat.strong_induction_on generalizing s with
  | _ n ih =>
    by_cases hex : ∃ j ∈ s.jobs, j.active
    · obtain ⟨hw1, hlt⟩ := hs.turn hw
      obtain ⟨hs1, -, -⟩ := hs.run_of_succeeds turn_succeeds
      obtain ⟨more, hmore, hend⟩ := ih _ (hn ▸ hlt hex) hs1 hw1 rfl
      refine ⟨System.turn ++ more, ?_, ?_⟩
      · intro e he
        rcases mem_append.mp he with he | he
        · exact turn_succeeds e he
        · exact hmore e he
      · rwa [run_append]
    · refine ⟨[], by simp, fun j hj => ?_⟩
      by_contra ha
      exact hex ⟨j, hj, by simpa using ha⟩

/-- From any worker, a job that goes on can end. -/
theorem Sound.reaches_final (hs : s.Sound) {j : Job} (hj : j ∈ s.jobs) (ha : j.active) :
    ∃ more, (∀ e ∈ more, JobEvent.Succeeds e) ∧ ∃ i ∈ (s.run more).jobs, i.id = j.id ∧ i.final = true := by
  obtain ⟨hs1, -, -⟩ := hs.run_of_succeeds ending_succeeds
  obtain ⟨more, hmore, hend⟩ := hs1.settles s.ending_idle
  have hall : ∀ e ∈ ending ++ more, JobEvent.Succeeds e := by
    intro e he
    rcases mem_append.mp he with he | he
    · exact ending_succeeds e he
    · exact hmore e he
  obtain ⟨i, hi, hid, hl⟩ := (hs.run_of_succeeds hall).2.2 j.id ⟨j, hj, rfl, Job.live_of_active ha⟩
  refine ⟨ending ++ more, hall, i, hi, hid, ?_⟩
  have hi' := hi
  simpa [Job.live, hend i hi'] using hl

/-- **No billing job gets stuck**: in a run in which no verification is cut off between
its last step and its verdict, and no job is created with nothing to claim, every job
that goes on and that no call is at work on can be claimed, and can still end. -/
theorem job_not_stuck {events : List JobEvent} (hu : empty.Uninterrupted events) {j : Job}
    (hj : j ∈ (empty.run events).jobs) (ha : j.active = true) (hw : (empty.run events).worker.on j.id = false) :
    (j.stepClaimable = true ∨ j.publishClaimable = true) ∧
    ∃ more, (∀ e ∈ more, JobEvent.Succeeds e) ∧
      ∃ i ∈ ((empty.run events).run more).jobs, i.id = j.id ∧ i.final = true := by
  have hs := Sound.empty.run hu
  exact ⟨hs.claimable hj ha hw, hs.reaches_final hj ha⟩

/-- A bill of two steps whose worker stops after the first. -/
theorem job_not_stuck_stopped :
    let events := [.create "bill" .generate 2 false 2, .claimStep .ok, .completeStep .ok, .stop]
    let j : Job := ⟨"bill", .generate, 2, false, .running, 2, 1, 0, [⟨.complete, 1⟩, ⟨.pending, 0⟩]⟩
    empty.Uninterrupted events ∧ j ∈ (empty.run events).jobs ∧ j.stepClaimable = true ∧
      ∃ more, (∀ e ∈ more, JobEvent.Succeeds e) ∧
        ∃ i ∈ ((empty.run events).run more).jobs, i.id = j.id ∧ i.final = true := by
  intro events j
  have hu : empty.Uninterrupted events := by decide +kernel
  have hj : j ∈ (empty.run events).jobs := by decide +kernel
  exact ⟨hu, hj, by decide +kernel, (job_not_stuck hu hj (by decide +kernel) (by decide +kernel)).2⟩

/-- A verification that stops after its last step has no step to claim and is never
published. -/
theorem stopped_verification_stuck :
    ∃ events j, j ∈ (empty.run events).jobs ∧ j.active = true ∧ (empty.run events).worker.on j.id = false ∧
      j.stepClaimable = false ∧ j.publishClaimable = false := by
  refine ⟨[.create "check" .verify 2 false 1, .claimStep .ok, .completeStep .ok, .stop],
    ⟨"check", .verify, 2, false, .running, 1, 1, 0, [⟨.complete, 1⟩]⟩, ?_⟩
  decide +kernel

end System

end ControlTower.Billing
