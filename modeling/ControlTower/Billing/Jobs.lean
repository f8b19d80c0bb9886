import ControlTower.Data.Table

/-! Billing jobs, their steps, and the worker that takes them through.

A job is created with its steps pending. The worker claims a job to publish, and
when there is none a step; each store call commits or not, may report an error
either way, and the process may stop between any two calls. `System.step` is one
store call, or one stop. The pages that a step reads change no status and are part
of its work. -/
namespace ControlTower.Billing
open Data

inductive JobType
  | generate
  | userStatement
  | upstreamStatement
  | verify
  deriving DecidableEq, Repr

inductive JobStatus
  | pending
  | running
  | publishing
  | complete
  | failed
  | noData
  | superseded
  deriving DecidableEq, Repr

inductive StepStatus
  | pending
  | running
  | complete
  | failed
  deriving DecidableEq, Repr

structure JobStep where
  status : StepStatus
  attempts : Nat
  deriving DecidableEq, Repr

/-- A row of `billing_jobs` with its steps, in the order of their numbers. -/
structure Job where
  id : String
  jobType : JobType
  usageVersion : Nat
  monthly : Bool
  status : JobStatus
  totalSteps : Nat
  completedSteps : Nat
  publishAttempts : Nat
  steps : List JobStep
  deriving DecidableEq, Repr

namespace JobStep

/-- `status IN ('pending','running')`. -/
def isOpen (s : JobStep) : Bool := s.status == .pending || s.status == .running

end JobStep

namespace Job

variable (j : Job)

/-- `status IN ('pending','running','publishing')`. -/
def active : Bool := j.status == .pending || j.status == .running || j.status == .publishing

def final : Bool := j.status == .complete || j.status == .failed || j.status == .noData

/-- `createBillingJobTx`. -/
def created (id : String) (jobType : JobType) (usageVersion : Nat) (monthly : Bool) (steps : Nat) : Job where
  id := id
  jobType := jobType
  usageVersion := usageVersion
  monthly := monthly
  status := .pending
  totalSteps := steps
  completedSteps := 0
  publishAttempts := 0
  steps := List.replicate steps ⟨.pending, 0⟩

/-- One row of `billing_job_steps` written. -/
def setStep (n : Nat) (f : JobStep → JobStep) : Job := { j with steps := j.steps.modify n f }

/-- The step is there with this status. -/
def stepIs (n : Nat) (status : StepStatus) : Bool := j.steps[n]?.any (·.status == status)

/-! ### The statements on one job -/

/-- The condition of `ClaimBillingStep`. -/
def stepClaimable : Bool := (j.status == .pending || j.status == .running) && j.steps.any (·.isOpen)

/-- The step that `ORDER BY s.step_no` puts first. -/
def firstOpen : Nat := j.steps.findIdx (·.isOpen)

def claimStep (n : Nat) : Job :=
  { j.setStep n (fun s => { status := .running, attempts := s.attempts + 1 }) with status := .running }

/-- The condition of `ClaimBillingPublish`. -/
def publishClaimable : Bool :=
  j.jobType != .verify &&
  (j.status == .running || j.status == .publishing ||
    (j.status == .pending && decide (3 ≤ j.usageVersion) && j.monthly)) &&
  decide (j.totalSteps ≤ j.completedSteps)

/-- `ClaimBillingPublish`. `empty`: the rows or requests it counts add up to zero. -/
def claimPublish (empty : Bool) : Job :=
  if decide (3 ≤ j.usageVersion) && !j.monthly && empty then { j with status := .noData }
  else { j with status := .publishing, publishAttempts := j.publishAttempts + 1 }

def failBillingPublish : Job :=
  if j.status = .publishing then { j with status := if j.publishAttempts < 3 then .running else .failed } else j

def completeBillingStep (n : Nat) : Job :=
  if j.stepIs n .running then
    let done := j.setStep n fun s => { s with status := .complete }
    if j.status = .pending ∨ j.status = .running then { done with completedSteps := j.completedSteps + 1 } else done
  else j

def failBillingStep (n : Nat) : Job :=
  if (j.status = .pending ∨ j.status = .running) ∧ j.stepIs n .running then
    if (j.steps[n]?.all fun s => decide (s.attempts < 3)) then
      { j.setStep n (fun s => { s with status := .pending }) with status := .running }
    else { j.setStep n (fun s => { s with status := .failed }) with status := .failed }
  else j

def yieldBillingStep (n : Nat) : Job :=
  if j.status = .running ∧ j.stepIs n .running then
    j.setStep n fun s => { status := .pending, attempts := s.attempts - 1 }
  else j

/-- `FinalizeBillingJob` and `CompleteBillingMonth`, which only differ in what else they write. -/
def finalizeBillingJob : Job :=
  if j.active ∧ j.totalSteps ≤ j.completedSteps then { j with status := .complete } else j

/-- `FinalizeBillingVerification`, which has no look at the status. -/
def finalizeBillingVerification : Job :=
  if j.totalSteps ≤ j.completedSteps then { j with status := .complete } else j

/-- `CancelBillingJob`, which rolls back for a job that is not active. -/
def cancelBillingJob : Job :=
  if j.active then
    { j with
      steps := j.steps.map fun s => if s.isOpen then { s with status := .failed } else s
      status := .failed }
  else j

/-- A bill that a new one replaces, and a month that a new day makes out of date. -/
def superseded : Job :=
  if j.status = .complete ∨ j.status = .noData ∨ (j.status = .pending ∧ j.monthly ∧ 3 ≤ j.usageVersion) then
    { j with status := .superseded }
  else j

/-- A month whose days have changed while it was published. -/
def discarded : Job :=
  if j.status = .publishing ∧ j.monthly ∧ 3 ≤ j.usageVersion then { j with status := .superseded } else j

/-! No statement changes the key. -/

theorem cancelBillingJob_id : j.cancelBillingJob.id = j.id := by
  unfold cancelBillingJob
  split <;> rfl

theorem superseded_id : j.superseded.id = j.id := by
  unfold superseded
  split <;> rfl

theorem discarded_id : j.discarded.id = j.id := by
  unfold discarded
  split <;> rfl

theorem claimPublish_id (empty : Bool) (j : Job) : (j.claimPublish empty).id = j.id := by
  unfold claimPublish
  split <;> rfl

theorem failBillingPublish_id : j.failBillingPublish.id = j.id := by
  unfold failBillingPublish
  split <;> rfl

theorem completeBillingStep_id (n : Nat) (j : Job) : (j.completeBillingStep n).id = j.id := by
  simp only [completeBillingStep]
  split <;> try split
  all_goals rfl

theorem failBillingStep_id (n : Nat) (j : Job) : (j.failBillingStep n).id = j.id := by
  unfold failBillingStep
  split <;> try split
  all_goals rfl

theorem yieldBillingStep_id (n : Nat) (j : Job) : (j.yieldBillingStep n).id = j.id := by
  unfold yieldBillingStep
  split <;> rfl

theorem finalizeBillingJob_id : j.finalizeBillingJob.id = j.id := by
  unfold finalizeBillingJob
  split <;> rfl

theorem finalizeBillingVerification_id : j.finalizeBillingVerification.id = j.id := by
  unfold finalizeBillingVerification
  split <;> rfl

end Job

/-! ### The worker -/

/-- The store call that the worker makes next. -/
inductive Worker
  | idle
  /-- The job is claimed and being published. -/
  | publishing (id : String)
  /-- Publishing failed: `FailBillingPublish` is next. -/
  | publishFailed (id : String)
  /-- The step is claimed and being worked on. -/
  | working (id : String) (step : Nat)
  /-- The step failed: `FailBillingStep` is next. -/
  | workFailed (id : String) (step : Nat)
  /-- The step of a verification is complete: the job is read again. -/
  | verified (id : String) (step : Nat)
  /-- Every step of a verification is complete: the results are written. -/
  | finalizing (id : String) (step : Nat)
  deriving DecidableEq, Repr

/-- A worker call is in progress on the job. -/
def Worker.on (id : String) : Worker → Bool
  | .idle => false
  | .publishing i | .publishFailed i | .working i _ | .workFailed i _ | .verified i _ | .finalizing i _ => i == id

structure System where
  /-- In the order of creation. -/
  jobs : Table Job.id
  worker : Worker

/-- What becomes of a store call: it commits, it commits and yet reports an error, or
it fails without effect. -/
inductive Call
  | ok
  | lost
  | failed
  deriving DecidableEq, Repr

def Call.commits : Call → Bool
  | .ok | .lost => true
  | .failed => false

def Call.reports : Call → Bool
  | .ok => true
  | .lost | .failed => false

inductive JobEvent
  /-- A job that an administrator or the scheduler asks for. -/
  | create (id : String) (jobType : JobType) (usageVersion : Nat) (monthly : Bool) (steps : Nat)
  | cancel (id : String)
  | supersede (id : String)
  | claimPublish (empty : Bool) (call : Call)
  /-- The snapshots and files, and the call that finishes the job: `failed` stands for
  an error of any of them. -/
  | publish (call : Call)
  /-- A month whose days are no longer current. -/
  | discard (call : Call)
  | failPublish (call : Call)
  | claimStep (call : Call)
  /-- The pages of the step fail. -/
  | breakOff
  /-- The step yields after a page. -/
  | yield (call : Call)
  | completeStep (call : Call)
  | failStep (call : Call)
  /-- `BillingJob` reads the job after a step of its verification. -/
  | readJob (call : Call)
  | finalizeVerification (call : Call)
  /-- The process stops, and starts again. -/
  | stop

namespace System

variable (s : System)

/-- A statement on the row of one job, if the call commits. -/
def write (call : Call) (id : String) (f : Job → Job) (h : ∀ j, (f j).id = j.id) (worker : Worker) :
    System where
  jobs := s.jobs.modify (fun j => if j.id = id ∧ call.commits then f j else j) (fun j => by split <;> simp [h])
  worker := worker

/-- The row of the job, when it is complete to the last step. -/
def stepsDone (id : String) : Bool :=
  (s.jobs.find id).any fun j => decide (j.totalSteps ≤ j.completedSteps)

def isVerification (id : String) : Bool := (s.jobs.find id).any fun j => j.jobType == .verify

def create (j : Job) : System :=
  if h : ∀ i ∈ s.jobs, i.id ≠ j.id then { s with jobs := s.jobs.append j h } else s

/-- One event. An event that the worker is not at leaves everything as it is. -/
def step : JobEvent → System
  | .create id jobType usageVersion monthly steps => s.create (.created id jobType usageVersion monthly steps)
  | .cancel id => s.write .ok id Job.cancelBillingJob Job.cancelBillingJob_id s.worker
  | .supersede id => s.write .ok id Job.superseded Job.superseded_id s.worker
  | .claimPublish empty call =>
    match s.worker, s.jobs.rows.find? Job.publishClaimable with
    | .idle, some j =>
      s.write call j.id (·.claimPublish empty) (Job.claimPublish_id empty)
        (if call.reports && (j.claimPublish empty).status == .publishing then .publishing j.id else .idle)
    | _, _ => s
  | .publish call =>
    match s.worker with
    | .publishing id =>
      s.write call id Job.finalizeBillingJob Job.finalizeBillingJob_id
        (if call.reports then .idle else .publishFailed id)
    | _ => s
  | .discard call =>
    match s.worker with
    | .publishing id =>
      s.write call id Job.discarded Job.discarded_id (if call.reports then .idle else .publishFailed id)
    | _ => s
  | .failPublish call =>
    match s.worker with
    | .publishFailed id => s.write call id Job.failBillingPublish Job.failBillingPublish_id .idle
    | _ => s
  | .claimStep call =>
    match s.worker, s.jobs.rows.find? Job.stepClaimable with
    | .idle, some j =>
      s.write call j.id (fun i => i.claimStep i.firstOpen) (fun _ => rfl)
        (if call.reports then .working j.id j.firstOpen else .idle)
    | _, _ => s
  | .breakOff =>
    match s.worker with
    | .working id n => { s with worker := .workFailed id n }
    | _ => s
  | .yield call =>
    match s.worker with
    | .working id n =>
      s.write call id (·.yieldBillingStep n) (Job.yieldBillingStep_id n)
        (if call.reports then .idle else .workFailed id n)
    | _ => s
  | .completeStep call =>
    match s.worker with
    | .working id n =>
      s.write call id (·.completeBillingStep n) (Job.completeBillingStep_id n)
        (if !call.reports then .workFailed id n else if s.isVerification id then .verified id n else .idle)
    | _ => s
  | .failStep call =>
    match s.worker with
    | .workFailed id n => s.write call id (·.failBillingStep n) (Job.failBillingStep_id n) .idle
    | _ => s
  | .readJob call =>
    match s.worker with
    | .verified id n =>
      { s with worker :=
          if !call.reports then .workFailed id n else if s.stepsDone id then .finalizing id n else .idle }
    | _ => s
  | .finalizeVerification call =>
    match s.worker with
    | .finalizing id n =>
      s.write call id Job.finalizeBillingVerification Job.finalizeBillingVerification_id
        (if call.reports then .idle else .workFailed id n)
    | _ => s
  | .stop => { s with worker := .idle }

def empty : System := ⟨Table.empty, .idle⟩

def run (events : List JobEvent) : System := events.foldl step s

end System

end ControlTower.Billing
