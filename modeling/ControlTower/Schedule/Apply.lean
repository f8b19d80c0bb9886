import ControlTower.Schedule.Store
import ControlTower.Data.Dialogue
import ControlTower.Tuning.Evaluation

/-! One call of `applyChannelSchedule`.

The call talks to the store, to the remote controller of the channel and to the clock. It
is written as the requests it makes, each with what it does on the answer, so that every
request may fail and the process may stop at any of them. A remote update is one request:
what the client reads before it posts the status belongs to it. -/
namespace ControlTower.Schedule
open Go Data Tuning

/-- What is read of a continuous state. -/
structure ChannelState where
  channelId : Int
  modelName : String
  pendingCommandId : String
  circuitStatusCommandId : String
  circuitStatusTarget : Int
  circuitDisabled : Bool
  phase : CircuitPhase
  pausedReason : PausedReason

structure BaseValue where
  channelId : Int
  baseWeight : Int
  models : List String

structure Channel where
  id : Int
  models : String
  group : String
  status : Int
  weight : Nat

structure Control where
  enabled : Bool
  allowed : Bool
  opening : Bool

/-- What the clock is read for. -/
inductive Moment
  | start
  | recheck
  | expiry
  | beginning
  | finishing
  deriving DecidableEq

/-- How the remote update ended. -/
inductive Updated
  | done
  | rejected
  | failed
  deriving DecidableEq

inductive Request
  | lockSite
  | lockChannel
  | load
  | clock (moment : Moment)
  | prepare (plan : Plan) (now : Time)
  | controller
  | read
  | states
  | policy
  | bases (model : String)
  | list
  | controls (now : Time)
  | available
  | begin (run : Execution) (before : Int) (now : Time)
  | journal (target : Int)
  /-- `id` is the command to which the request is linked. -/
  | update (id : ExecutionId) (target : Int)
  | journalResult (result : Updated)
  | link (id : ExecutionId)
  | finish (run : Execution) (status : Status) (message : String) (written : Bool) (now : Time)

abbrev Answer : Request → Type
  | .lockSite | .lockChannel | .begin .. | .journal _ | .finish .. => Option Err
  | .load => Except Err Plan
  | .clock _ => Time
  | .prepare .. => Except Err (Option Execution)
  -- Whether there is a direct controller, and whether it reads the status.
  | .controller => Except Err (Option Bool)
  | .read => Except Err (Option Int)
  | .states => Except Err (List ChannelState)
  -- The models whose dispatch mode is `auto`, if there is a policy.
  | .policy => Except Err (Option (List String))
  | .bases _ => Except Err (List BaseValue)
  | .list => Except Err (List Channel)
  | .controls _ => Except Err (List (Int × Control))
  | .available => Except Err Bool
  | .update .. => Updated
  | .journalResult _ | .link _ => Unit

/-- A call returns its error, if any. -/
abbrev Call := Dialogue Request Answer (Option Err)

open Dialogue (ask ret)

/-! ### Whether the channel may be closed -/

def splitScheduleValues (value : String) : List String :=
  ((value.splitOn ",").map trimSpace).filter fun v => v ≠ ""

def containsScheduleValue (value want : String) : Bool := (splitScheduleValues value).contains want

def ChannelState.blocked (s : ChannelState) : Bool :=
  s.circuitDisabled || decide (s.pendingCommandId ≠ "") || decide (s.circuitStatusTarget ≠ 0) || decide (s.pausedReason ≠ .clear) ||
    decide (s.phase ≠ .blank ∧ s.phase ≠ .normal)

/-- The peers that serve a model in a group and are not switched off by their own plan. -/
def peers (channelId : Int) (channels : List Channel) (controls : List (Int × Control)) (model group : String) :
    List (Channel × Control) :=
  (channels.map fun peer => (peer, (controls.lookup peer.id).getD ⟨false, false, false⟩)).filter fun e =>
    decide (e.1.id ≠ channelId) && containsScheduleValue e.1.models model && containsScheduleValue e.1.group group &&
      !(e.2.enabled && !e.2.allowed)

/-- The reason why the channel has to stay open, and whether a peer is about to be opened. -/
def scheduleCloseBlocked (channelId : Int) (channels : List Channel) (states : List ChannelState) (controls : List (Int × Control)) :
    String × Bool :=
  match channels.find? fun c => c.id = channelId with
  | none => ("渠道不存在", false)
  | some target =>
    let blocked := (states.filter ChannelState.blocked).map ChannelState.channelId
    let models := splitScheduleValues target.models
    let groups := splitScheduleValues target.group
    if models.isEmpty || groups.isEmpty then ("无法确认模型或分组覆盖", false)
    else
      let uncovered := (models.flatMap fun model => groups.map fun group => (model, group)).filter fun e =>
        !(peers channelId channels controls e.1 e.2).any fun p => decide (p.1.status = 1 ∧ p.1.weight ≠ 0 ∧ p.1.id ∉ blocked)
      let reason (e : String × String) := s!"模型 {e.1} / 分组 {e.2} 缺少可确认的替代渠道"
      match uncovered.find? fun e => !(peers channelId channels controls e.1 e.2).any fun p => p.2.opening with
      | some e => (reason e, false)
      | none =>
        match uncovered.getLast? with
        | some e => (reason e, true)
        | none => ("", false)

/-! ### The call -/

variable (run : Execution)

def finish (status : Status) (message : String) (written : Bool) : Call :=
  ask (.clock .finishing) fun now => ask (.finish run status message written now) ret

def readFailure (cause : Err) : Call :=
  if run.status = .running then finish run .unknown "上次写入未确认，状态读取失败" false
  else
    let run := { run with attempts := run.attempts + 1 }
    finish run (if cause.transient ∧ run.attempts < maxAttempts then .retry else .failed) "渠道状态或控制信息读取失败" false

/-- The end of a call that has updated the remote channel. -/
def settle : Updated → Call
  | .done => finish run .succeeded "" true
  | .rejected => finish run .failed "状态写入被拒绝，请检查直连权限及渠道配置" false
  | .failed =>
    -- The update may have been carried out: the status is read, and not written again.
    ask .read fun
      | .ok (some observed) =>
        if observed = run.target then finish run .succeeded "已回读确认状态" true
        else finish run .unknown "状态写入结果未确认" false
      | _ => finish run .unknown "状态写入结果未确认" false

/-- `journalController.Update`, and the link of its journal entry. -/
def write : Call :=
  ask (.journal run.target) fun
    | some _ => settle run .failed
    | none =>
      ask (.update run.id run.target) fun result =>
        ask (.journalResult result) fun _ => ask (.link run.id) fun _ => settle run result

def beginWrite (actual : Int) : Call :=
  ask (.clock .beginning) fun now =>
    let run := { run with beforeStatus := actual, attempts := run.attempts + 1, status := .running, updatedAt := now }
    ask (.begin run actual now) fun
      | some e => ret (some e)
      | none => write run

def checkAvailable (actual : Int) : Call :=
  ask .available fun
    | .error e => readFailure run e
    | .ok false => finish run .failed "站点已停用或直连配置已移除" false
    | .ok true => beginWrite run actual

/-- The boundary is checked again after all that was read. -/
def recheck (plan : Plan) (run : Execution) (actual : Int) : Call :=
  ask (.clock .recheck) fun now =>
    let position := plan.position now
    if position.status ≠ run.target ∨ run.boundary < position.boundary then finish run .superseded "已进入下一计划时点" false
    else match run.expiresAt with
      | none => checkAvailable run actual
      | some expiresAt =>
        ask (.clock .expiry) fun now =>
          if ¬ now < expiresAt then finish run .superseded "已进入下一计划时点" false else checkAvailable run actual

/-- Before a channel is closed, others have to cover its models. -/
def checkCover (plan : Plan) (run : Execution) (actual : Int) (now : Time) (states : List ChannelState) : Call :=
  if run.target = 2 then
    ask .list fun
      | .error e => readFailure run e
      | .ok channels =>
        if channels.length > 5000 then finish run .skipped "渠道数量超过检查上限" false
        else ask (.controls now) fun
          | .error e => readFailure run e
          | .ok controls =>
            let blocked := scheduleCloseBlocked plan.channelId channels states controls
            if blocked.1 ≠ "" then
              if blocked.2 then finish run .waitingControl "等待计划开启的替代渠道" false
              else finish run .skipped blocked.1 false
            else recheck plan run actual
  else recheck plan run actual

/-- A channel that a circuit breaker has switched off is opened by its recovery only. -/
def awaitRecovery (plan : Plan) (run : Execution) (model : String) : Call :=
  ask .policy fun
    | .error e => readFailure run e
    | .ok policy =>
      ask (.bases model) fun
        | .error e => readFailure run e
        | .ok bases =>
          let canRecover := bases.any fun b => decide (b.channelId = plan.channelId ∧ b.baseWeight > 0 ∧ b.models.length = 1)
          if policy.any (fun auto => auto.contains model) && canRecover then
            finish run .waitingRecovery "等待熔断或写入异常恢复" false
          else finish run .skipped "熔断或写入异常，当前配置无法自动恢复" false

/-- The loop over the states of the site. -/
def checkStates (plan : Plan) (run : Execution) (actual : Int) (now : Time) (states : List ChannelState) : List ChannelState → Call
  | [] => checkCover plan run actual now states
  | state :: rest =>
    if state.channelId ≠ plan.channelId then checkStates plan run actual now states rest
    else if state.pendingCommandId ≠ "" ∨ state.circuitStatusCommandId ≠ "" then
      finish run .waitingControl "等待其他渠道操作完成" false
    else if run.target = 1 ∧ (state.circuitDisabled ∨ state.phase = .circuit ∨ state.phase = .probing ∨
        state.pausedReason = .other "write_failed") then
      awaitRecovery plan run state.modelName
    else checkStates plan run actual now states rest

/-- The channel is to be switched. -/
def switch (plan : Plan) (run : Execution) (actual : Int) (now : Time) : Call :=
  if (run.status = .waitingRecovery ∨ run.status = .waitingControl) ∧ now - run.boundary ≥ 10 * minuteLength then
    finish run .failed "超过计划时点10分钟仍未完成" false
  else ask .states fun
    | .error e => readFailure run e
    | .ok states => checkStates plan run actual now states states

/-- A status that the remote controller answered. -/
def observe (plan : Plan) (run : Execution) (now : Time) : Option Int → Call
  | none => finish run .failed "无法确认渠道开关状态" false
  | some actual =>
    if actual ≠ 1 ∧ actual ≠ 2 then finish run .failed "无法确认渠道开关状态" false
    else if run.status = .running then
      if actual = run.target then finish run .succeeded "已回读确认状态" true
      else finish run .unknown "上次写入结果未确认" false
    else
      let run := { run with beforeStatus := actual }
      if actual = run.target then finish run .unchanged "当前开关已符合计划" false else switch plan run actual now

def execute (plan : Plan) (run : Execution) (now : Time) : Call :=
  ask .controller fun
    | .error _ => finish run .failed "读取直连配置失败" false
    | .ok none => finish run .failed "未配置直连控制" false
    | .ok (some false) => finish run .failed "直连客户端不支持渠道状态读取" false
    | .ok (some true) =>
      if run.status = .retry ∧ now - run.updatedAt < 2 ^ (min run.attempts 4).toNat * (minuteLength / 2) then ret none
      else ask .read fun
        | .error e => readFailure run e
        | .ok actual => observe plan run now actual

def applyChannelSchedule : Call :=
  ask .lockSite fun
    | some e => ret (some e)
    | none => ask .lockChannel fun
      | some e => ret (some e)
      | none => ask .load fun
        | .error e => ret (some e)
        | .ok plan =>
          if !plan.enabled then ret none
          else ask (.clock .start) fun now => ask (.prepare plan now) fun
            | .error e => ret (some e)
            | .ok none => ret none
            | .ok (some run) => if run.status.terminal then ret none else execute plan run now

/-! ### What the requests do to the store -/

/-- A write that takes effect although it failed. -/
def Err.leaves (e : Err) (before after : Store) : Store := if e.committed then after else before

/-- A request on the store, with the answer that it would give: it may fail, and then have
been committed or not. -/
def serve (s : Store) : (q : Request) → Answer q → Answer q × Store
  | .load, .ok _ => (loadChannelSchedule s, s)
  | .prepare plan now, .ok _ =>
    let prepared := prepareChannelSchedule s plan now
    (.ok prepared.2, prepared.1)
  | .prepare plan now, .error e => (.error e, e.leaves s (prepareChannelSchedule s plan now).1)
  | .begin run before now, none => (none, beginChannelScheduleWrite s run before now)
  | .begin run before now, some e => (some e, e.leaves s (beginChannelScheduleWrite s run before now))
  | .finish run status message written now, answer =>
    match finishChannelSchedule s run status message written now with
    | .error e => (some (answer.getD e), s)
    | .ok after => (answer, answer.elim after fun e => e.leaves s after)
  | .load, .error e => (.error e, s)
  | .lockSite, answer | .lockChannel, answer | .clock _, answer | .controller, answer | .read, answer | .states, answer
  | .policy, answer | .bases _, answer | .list, answer | .controls _, answer | .available, answer | .journal _, answer
  | .update .., answer | .journalResult _, answer | .link _, answer => (answer, s)

end ControlTower.Schedule
