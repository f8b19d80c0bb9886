import ControlTower.Schedule.Plan
import ControlTower.Data.Table

/-! The plan of a channel and its executions in the store.

Each boundary of a plan has one execution, whose row is all that a later call knows of an
earlier one. The id of a row is a hash of the site, the channel, the revision of the plan
and the boundary, and stands for these four. Edits of a plan raise its revision and end
the executions that are under way. -/
namespace ControlTower.Schedule
open Go Data Option Table

def maxAttempts : Int := 5

def maxPerSite : Nat := 200

inductive Status
  | pending
  | running
  | retry
  | waitingRecovery
  | waitingControl
  | succeeded
  | unchanged
  | skipped
  | failed
  | unknown
  | superseded
  deriving DecidableEq, Repr

def Status.terminal : Status → Bool
  | succeeded | unchanged | skipped | failed | unknown | superseded => true
  | pending | running | retry | waitingRecovery | waitingControl => false

structure ExecutionId where
  siteId : String
  channelId : Int
  revision : Int
  boundary : Time
  deriving DecidableEq

structure Execution where
  siteId : String
  channelId : Int
  revision : Int
  boundary : Time
  target : Int
  status : Status
  attempts : Int
  error : String
  updatedAt : Time
  expiresAt : Option Time
  beforeStatus : Int
  deriving DecidableEq

def Execution.id (e : Execution) : ExecutionId := ⟨e.siteId, e.channelId, e.revision, e.boundary⟩

structure Plan extends Config where
  siteId : String
  channelId : Int
  effectiveAt : Time
  updatedAt : Time
  closedBySchedule : Bool
  lastExecutionId : Option ExecutionId
  nextCheckAt : Time
  deriving DecidableEq

/-- The plan of one channel of one site, if it has one, and the executions. -/
structure Store where
  plan : Option Plan
  executions : Table Execution.id

/-- Why a call of the store or of the controller failed; a failure may be of the kind
that `transientScheduleRead` knows. A write that failed may have been committed, which
its caller does not see. -/
inductive Err
  | failed (transient committed : Bool)
  | superseded
  | noRows
  deriving DecidableEq

def Err.transient : Err → Bool
  | failed transient _ => transient
  | superseded | noRows => false

def Err.committed : Err → Bool
  | failed _ committed => committed
  | superseded | noRows => false

/-! ### Statements -/

/-- `UPDATE channel_schedule_executions SET … WHERE id=?`. -/
def updateExecution (executions : Table Execution.id) (id : ExecutionId) (status : Status) (attempts beforeStatus : Int) (error : Option String)
    (now : Time) : Table Execution.id :=
  executions.modify (fun e => if e.id = id then
      { e with status := status, attempts := attempts, beforeStatus := beforeStatus, error := error.getD e.error, updatedAt := now }
    else e) fun e => by split <;> rfl

/-- The executions of the channel that are under way, but for one, come to an end. -/
def supersedeScheduleExecutions (executions : Table Execution.id) (siteId : String) (channelId : Int) (but : Option ExecutionId)
    (message : String) (now : Time) : Table Execution.id :=
  executions.modify (fun e =>
    if e.siteId = siteId ∧ e.channelId = channelId ∧ some e.id ≠ but ∧ e.status.terminal = false then
      { e with status := .superseded, error := message, updatedAt := now }
    else e) fun e => by split <;> rfl

variable (s : Store) (plan : Plan)

/-- `UPDATE channel_schedules SET … WHERE site_id=? AND channel_id=? AND revision=?`. -/
def Store.touch (f : Plan → Plan) : Store :=
  { s with plan := s.plan.map fun p => if p.revision = plan.revision then f p else p }

/-! ### The calls of `applyChannelSchedule` -/

def loadChannelSchedule : Except Err Plan :=
  match s.plan with
  | none => .error .noRows
  | some plan =>
    match plan.toConfig.normalize with
    | .error _ => .error (.failed false false)
    | .ok config => .ok { plan with toConfig := { config with enabled := plan.enabled, revision := plan.revision } }

variable (now : Time)

/-- The boundary whose execution is due, if there is one. -/
def Plan.due : Option Time :=
  let p := plan.position now
  if p.boundary.isZero ∨ p.boundary < plan.effectiveAt then
    if plan.alignNow then some plan.effectiveAt else none
  else some p.boundary

/-- When to look again while nothing is to be done. -/
def Plan.nextAt : Time :=
  let p := plan.position now
  if p.nextAt.isZero then now + 60 * minuteLength else p.nextAt

def Plan.nextCheck : Time :=
  let p := plan.position now
  let next := now - now % (minuteLength / 2) + minuteLength / 2
  if ¬ p.nextAt.isZero ∧ p.nextAt < next then p.nextAt else next

/-- The execution of a boundary before anything was done. -/
def Plan.pending (boundary now : Time) : Execution where
  siteId := plan.siteId
  channelId := plan.channelId
  revision := plan.revision
  boundary := boundary
  target := (plan.position now).status
  status := .pending
  attempts := 0
  error := ""
  updatedAt := now
  expiresAt := if (plan.position now).nextAt.isZero then none else some (plan.position now).nextAt
  beforeStatus := 0

/-- `INSERT IGNORE`. -/
def insertIgnore (executions : Table Execution.id) (e : Execution) : Table Execution.id :=
  if (executions.find e.id).isSome then executions else executions.put e

def prepareChannelSchedule : Store × Option Execution :=
  match plan.due now with
  | none => (s.touch plan fun p => { p with nextCheckAt := plan.nextAt now }, none)
  | some boundary =>
    let fresh := plan.pending boundary now
    let executions := supersedeScheduleExecutions s.executions plan.siteId plan.channelId (some fresh.id) "已到下一计划边界" now
    let executions := insertIgnore executions fresh
    let linked := Store.touch ⟨s.plan, executions⟩ plan fun p =>
      { p with lastExecutionId := some fresh.id, nextCheckAt := plan.nextCheck now }
    match executions.find fresh.id with
    | none => (s, none)
    | some run =>
      if run.status.terminal then (linked.touch plan fun p => { p with nextCheckAt := plan.nextAt now }, some run)
      else (linked, some run)

def beginChannelScheduleWrite (run : Execution) (before : Int) (now : Time) : Store :=
  { s with executions := updateExecution s.executions run.id .running run.attempts before none now }

/-- What is kept of a message. -/
def summary (message : String) : String :=
  let message := trimSpace message
  if message.utf8ByteSize > 500 then String.ofList (message.toList.take 160) else message

def finishChannelSchedule (run : Execution) (status : Status) (message : String) (written : Bool) (now : Time) :
    Except Err Store :=
  match s.plan with
  | none => .error .noRows
  | some plan =>
    if plan.revision ≠ run.revision then .error .superseded
    else
      let plan :=
        if written then { plan with closedBySchedule := decide (run.target = 2) }
        else if run.target = 1 ∧ (status = .unchanged ∨ status = .succeeded) then { plan with closedBySchedule := false }
        else plan
      .ok ⟨some plan, updateExecution s.executions run.id status run.attempts run.beforeStatus (some (summary message)) now⟩

/-! ### Edits -/

/-- A request to save a plan, and what the check of the site and the channel shows. -/
structure Edit where
  siteId : String
  channelId : Int
  config : Config
  available : Bool
  known : Bool
  /-- The plans of the site. -/
  count : Nat
  now : Time

def Store.endAll (siteId : String) (channelId : Int) (message : String) (now : Time) : Store :=
  { s with executions := supersedeScheduleExecutions s.executions siteId channelId none message now }

/-- `SaveChannelSchedule`; `none` when it is refused. -/
def saveChannelSchedule (edit : Edit) : Option Store := do
  let config ← edit.config.normalize.toOption
  if config.enabled ∧ ¬ edit.available ∨ ¬ edit.known then none else
  let saved (old : Option Plan) : Store :=
    let plan : Plan :=
      { config with
        revision := config.revision + 1, expectedUpdatedAt := none, siteId := edit.siteId, channelId := edit.channelId
        effectiveAt := edit.now, updatedAt := edit.now, closedBySchedule := old.any Plan.closedBySchedule
        lastExecutionId := none, nextCheckAt := edit.now }
    Store.endAll ⟨some plan, s.executions⟩ edit.siteId edit.channelId "计划已修改" edit.now
  match s.plan with
  | none => if config.revision ≠ 0 ∨ config.expectedUpdatedAt.isSome ∨ edit.count ≥ maxPerSite then none else some (saved none)
  | some old =>
    if old.revision ≠ config.revision ∨ config.expectedUpdatedAt.any (fun t => decide (old.updatedAt ≠ t)) then none
    else if old.revision > 0 ∧ ¬ config.alignNow ∧ config.sameTiming old.toConfig then some s
    else some (saved (some old))

/-- `DeleteChannelSchedule`. -/
def deleteChannelSchedule (revision : Int) (expectedUpdatedAt : Option Time) (now : Time) : Option Store :=
  match s.plan with
  | none => none
  | some old =>
    if old.revision ≠ revision ∨ expectedUpdatedAt.any (fun t => decide (old.updatedAt ≠ t)) then none
    else some (Store.endAll ⟨none, s.executions⟩ old.siteId old.channelId "计划已删除" now)

/-! ### How rows move -/

/-- The next status of a row: from `running` only the four that say how the write ended,
and none from a terminal one. -/
def Status.next (a b : Status) : Bool :=
  decide (a = b) || match a with
    | running => b = succeeded || b = unknown || b = failed || b = superseded
    | pending | retry | waitingRecovery | waitingControl => true
    | _ => false

/-- Nothing has been written for the execution. -/
def Status.writable (a : Status) : Bool := !a.terminal && decide (a ≠ running)

theorem Status.next_refl (a : Status) : a.next a = true := by simp [next]

theorem Status.next_trans {a b c : Status} (h : a.next b = true) (h' : b.next c = true) : a.next c = true := by
  revert h h'
  cases a <;> cases b <;> cases c <;> decide

def Store.status (id : ExecutionId) : Option Status := (s.executions.find id).map Execution.status

/-- Every row of `s` is in `s'`, with the same status or a next one. -/
def Later (s s' : Store) : Prop := ∀ id st, s.status id = some st → ∃ st', s'.status id = some st' ∧ st.next st' = true

theorem Later.refl : Later s s := fun _ st h => ⟨st, h, st.next_refl⟩

theorem Later.trans {s s' s'' : Store} (h : Later s s') (h' : Later s' s'') : Later s s'' := by
  intro id st hst
  obtain ⟨st', hst', hnext⟩ := h id st hst
  obtain ⟨st'', hst'', hnext'⟩ := h' id st' hst'
  exact ⟨st'', hst'', Status.next_trans hnext hnext'⟩

theorem status_updateExecution (id id' : ExecutionId) (plan : Option Plan) (status : Status) (attempts before : Int)
    (error : Option String) (now : Time) :
    (Store.mk plan (updateExecution s.executions id status attempts before error now)).status id' =
      (s.status id').map fun st => if id' = id then status else st := by
  simp only [Store.status, updateExecution, find_modify, map_map]
  cases hf : s.executions.find id' with
  | none => rfl
  | some e =>
    have hid : e.id = id' := (find_eq_some.mp hf).2
    simp only [map_some, Function.comp_apply, hid]
    split <;> rfl

/-- A row that moves to a next status. -/
theorem Later.update {s : Store} {id : ExecutionId} {st : Status} (hst : s.status id = some st) {status : Status}
    (hnext : st.next status = true) (plan : Option Plan) (attempts before : Int) (error : Option String) (now : Time) :
    Later s ⟨plan, updateExecution s.executions id status attempts before error now⟩ := by
  intro id' st' hst'
  rw [status_updateExecution, hst', map_some]
  by_cases hid : id' = id
  · subst hid
    rw [hst, some_inj] at hst'
    subst hst'
    exact ⟨status, by simp, hnext⟩
  · exact ⟨st', by simp [hid], st'.next_refl⟩

theorem Later.supersede (plan : Option Plan) (siteId : String) (channelId : Int) (but : Option ExecutionId)
    (message : String) (now : Time) :
    Later s ⟨plan, supersedeScheduleExecutions s.executions siteId channelId but message now⟩ := by
  intro id st hst
  obtain ⟨e, he, rfl⟩ := map_eq_some_iff.mp hst
  simp only [Store.status, supersedeScheduleExecutions, find_modify, he, map_some, some_inj, exists_eq_left']
  split
  next h =>
    have hlive := h.2.2.2
    show e.status.next .superseded = true
    revert hlive
    cases e.status <;> decide
  next => exact e.status.next_refl

theorem Later.insertIgnore (plan : Option Plan) (executions : Table Execution.id) (plan' : Option Plan) (e : Execution) :
    Later ⟨plan, executions⟩ ⟨plan', Schedule.insertIgnore executions e⟩ := by
  intro id st hst
  obtain ⟨e', he', rfl⟩ := map_eq_some_iff.mp hst
  refine ⟨e'.status, ?_, e'.status.next_refl⟩
  simp only [Store.status, Schedule.insertIgnore]
  split
  next => rw [he']; rfl
  next hnone =>
    have hne : e.id ≠ id := by
      intro heq
      rw [heq, he'] at hnone
      simp at hnone
    rw [find_put]
    simp [hne, he']

theorem Later.of_executions {s s' : Store} (h : s'.executions = s.executions) : Later s s' := by
  intro id st hst
  exact ⟨st, by rw [Store.status, h]; exact hst, st.next_refl⟩

/-- The row that `PrepareChannelSchedule` returns is the one in the store. -/
theorem prepare_spec :
    Later s (prepareChannelSchedule s plan now).1 ∧ ∀ run, (prepareChannelSchedule s plan now).2 = some run →
      (prepareChannelSchedule s plan now).1.status run.id = some run.status := by
  simp only [prepareChannelSchedule]
  cases plan.due now with
  | none => exact ⟨.of_executions rfl, by simp⟩
  | some boundary =>
    have hlater : ∀ p, Later s ⟨p, insertIgnore (supersedeScheduleExecutions s.executions plan.siteId plan.channelId
        (some (plan.pending boundary now).id) "已到下一计划边界" now) (plan.pending boundary now)⟩ := fun p =>
      Later.trans (Later.supersede s none _ _ _ _ _) (Later.insertIgnore _ _ _ _)
    dsimp only
    generalize insertIgnore _ _ = executions at hlater
    cases hf : executions.find (plan.pending boundary now).id with
    | none => exact ⟨.refl s, by simp⟩
    | some run =>
      have hid := (find_eq_some.mp hf).2
      have hfound : (executions.find run.id).map Execution.status = some run.status := by
        rw [hid, hf]
        rfl
      dsimp only
      split
      next =>
        refine ⟨hlater _, fun run' hrun => ?_⟩
        cases hrun
        exact hfound
      next =>
        refine ⟨hlater _, fun run' hrun => ?_⟩
        cases hrun
        exact hfound

theorem save_later {s s' : Store} {edit : Edit} (h : saveChannelSchedule s edit = some s') : Later s s' := by
  obtain ⟨config, -, h⟩ := bind_eq_some_iff.mp h
  simp only at h
  split at h
  next => cases h
  next =>
    cases hp : s.plan with
    | none =>
      simp only [hp] at h
      split at h
      next => cases h
      next =>
        cases h
        exact Later.supersede s _ _ _ _ _ _
    | some old =>
      simp only [hp] at h
      split at h
      next => cases h
      next =>
        split at h
        next =>
          cases h
          exact .refl s
        next =>
          cases h
          exact Later.supersede s _ _ _ _ _ _

theorem delete_later {s s' : Store} {revision : Int} {expectedUpdatedAt : Option Time} {now : Time}
    (h : deleteChannelSchedule s revision expectedUpdatedAt now = some s') : Later s s' := by
  simp only [deleteChannelSchedule] at h
  split at h
  next => cases h
  next =>
    split at h
    next => cases h
    next =>
      cases h
      exact Later.supersede s _ _ _ _ _ _

end ControlTower.Schedule
