import Mathlib.Data.List.Induction
import ControlTower.Schedule.Apply

/-! An execution writes the remote channel at most once.

A call goes through stages: it finds the plan, prepares the execution, checks the boundary
again, stores the row as running, and only then updates the remote channel. `allowed` says
what each stage may request, and the call keeps to it whatever is answered
(`apply_follows`). What the stages say of the store and of the requests so far then holds
along every run, with calls that fail or stop anywhere. -/
namespace ControlTower.Schedule
open Go Data List
open Dialogue (Follows)

/-! ### The protocol of a call -/

/-- How far a call has come; `run` is the row as it was prepared. -/
inductive Stage
  | opening
  | located (plan : Plan)
  | prepared (plan : Plan) (run : Execution)
  | rechecked (plan : Plan) (run : Execution) (now : Time)
  | begun (plan : Plan) (run : Execution) (now : Time)
  | settling (run : Execution)
  | over_

/-- The row of the execution, where the call knows it. -/
def Stage.row : Stage → Option (ExecutionId × Status)
  | prepared _ run | rechecked _ run _ => some (run.id, run.status)
  | begun _ run _ | settling run => some (run.id, .running)
  | opening | located _ | over_ => none

def allowed (g : Stage) : Request → Prop
  | .lockSite | .lockChannel | .load => g = .opening
  | .clock .start => ∃ plan, g = .located plan
  | .prepare plan _ => g = .located plan
  | .controller | .states | .policy | .bases _ | .list | .controls _ | .clock .recheck => ∃ plan run, g = .prepared plan run
  | .read => (∃ plan run, g = .prepared plan run) ∨ (∃ plan run now, g = .begun plan run now) ∨ ∃ run, g = .settling run
  | .clock .expiry | .available | .clock .beginning => ∃ plan run now, g = .rechecked plan run now
  | .begin r _ _ => ∃ plan run now, g = .rechecked plan run now ∧ r.id = run.id ∧ run.status.writable = true ∧
      run.target = (plan.position now).status
  | .journal _ => ∃ plan run now, g = .begun plan run now
  | .update id target => ∃ plan run now, g = .begun plan run now ∧ id = run.id ∧ target = (plan.position now).status
  | .journalResult _ | .link _ => ∃ run, g = .settling run
  | .clock .finishing => g.row.isSome
  | .finish r st _ _ _ => ∃ row, g.row = some row ∧ r.id = row.1 ∧ row.2.next st = true

def after (g : Stage) : (q : Request) → Answer q → Stage
  | .load, .ok plan => .located plan
  | .prepare plan _, .ok (some run) => .prepared plan run
  | .clock .recheck, now =>
    match g with
    | .prepared plan run => .rechecked plan run now
    | g => g
  | .begin .., none =>
    match g with
    | .rechecked plan run now => .begun plan run now
    | g => g
  | .begin .., some _ => .over_
  | .update .., _ | .read, _ =>
    match g with
    | .begun _ run _ => .settling run
    | g => g
  | .finish .., _ => .over_
  | _, _ => g

/-! ### The call keeps to it -/

theorem Status.next_of_writable {a : Status} (h : a.writable = true) (b : Status) : a.next b = true := by
  revert h
  cases a <;> simp [writable, terminal, next]

section Follows
variable {g : Stage} {plan : Plan} {run₀ run : Execution} {now : Time}

theorem finish_follows {row : ExecutionId × Status} (hrow : g.row = some row) (hid : run.id = row.1) {status : Status}
    (hnext : row.2.next status = true) (message : String) (written : Bool) :
    Follows allowed after g (finish run status message written) := by
  refine ⟨by simp [allowed, hrow], fun t => ⟨⟨row, hrow, hid, hnext⟩, fun _ => True.intro⟩⟩

/-- The execution that a function works on is the one of the stage. -/
structure Same (run run₀ : Execution) : Prop where
  id : run.id = run₀.id
  status : run.status = run₀.status
  target : run.target = run₀.target

theorem readFailure_follows (hrow : g.row = some (run₀.id, run₀.status)) (hsame : Same run run₀)
    (hlive : run₀.status.terminal = false) (cause : Err) : Follows allowed after g (readFailure run cause) := by
  rw [readFailure]
  split
  next hrunning =>
    rw [hsame.status] at hrunning
    exact finish_follows hrow hsame.id (by rw [hrunning]; rfl) _ _
  next hrunning =>
    rw [hsame.status] at hrunning
    have hw : run₀.status.writable = true := by simp [Status.writable, hlive, hrunning]
    have hid : Execution.id { run with attempts := run.attempts + 1 } = run₀.id := hsame.id
    exact finish_follows hrow hid (Status.next_of_writable hw _) "渠道状态或控制信息读取失败" false

theorem settle_follows (hid : run.id = run₀.id) (result : Updated) : Follows allowed after (.settling run₀) (settle run result) := by
  have hend : ∀ {status : Status} (_ : Status.running.next status = true) (message : String) (written : Bool),
      Follows allowed after (.settling run₀) (finish run status message written) :=
    fun hnext => finish_follows rfl hid hnext
  cases result with
  | done => exact hend rfl _ _
  | rejected => exact hend rfl _ _
  | failed =>
    refine ⟨.inr (.inr ⟨run₀, rfl⟩), fun answer => ?_⟩
    match answer with
    | .ok (some observed) =>
      show Follows allowed after (.settling run₀) (if observed = run.target then _ else _)
      split
      next => exact hend rfl _ _
      next => exact hend rfl _ _
    | .ok none => exact hend rfl _ _
    | .error e => exact hend rfl _ _

theorem write_follows (hid : run.id = run₀.id) (htarget : run.target = (plan.position now).status) :
    Follows allowed after (.begun plan run₀ now) (write run) := by
  refine ⟨⟨plan, run₀, now, rfl⟩, fun answer => ?_⟩
  cases answer with
  | none =>
    refine ⟨⟨plan, run₀, now, rfl, hid, htarget⟩, fun result => ⟨⟨run₀, rfl⟩, fun _ => ⟨⟨run₀, rfl⟩, fun _ => ?_⟩⟩⟩
    exact settle_follows hid result
  | some e =>
    -- The journal failed: the remote channel is read, and not written.
    refine ⟨.inr (.inl ⟨plan, run₀, now, rfl⟩), fun answer => ?_⟩
    exact (settle_follows hid .failed).2 answer

variable (hsame : Same run run₀)
include hsame

variable (hw : run₀.status.writable = true)
include hw

theorem beginWrite_follows (htarget : run₀.target = (plan.position now).status) (actual : Int) :
    Follows allowed after (.rechecked plan run₀ now) (beginWrite run actual) := by
  refine ⟨⟨plan, run₀, now, rfl⟩, fun t => ⟨⟨plan, run₀, now, rfl, hsame.id, hw, htarget⟩, fun answer => ?_⟩⟩
  cases answer with
  | some e => exact True.intro
  | none => exact write_follows hsame.id (hsame.target.trans htarget)

omit hw in
omit hsame in
theorem Status.writable.live {a : Status} (h : a.writable = true) : a.terminal = false := by
  cases a <;> first | rfl | cases h

theorem checkAvailable_follows (htarget : run₀.target = (plan.position now).status) (actual : Int) :
    Follows allowed after (.rechecked plan run₀ now) (checkAvailable run actual) := by
  refine ⟨⟨plan, run₀, now, rfl⟩, fun answer => ?_⟩
  match answer with
  | .error e => exact readFailure_follows rfl hsame (Status.writable.live hw) e
  | .ok false => exact finish_follows rfl hsame.id (Status.next_of_writable hw _) _ _
  | .ok true => exact beginWrite_follows hsame hw htarget actual

theorem recheck_follows (actual : Int) :
    Follows allowed after (.prepared plan run₀) (recheck plan run actual) := by
  refine ⟨⟨plan, run₀, rfl⟩, fun t => ?_⟩
  show Follows allowed after (.rechecked plan run₀ t) (if _ then _ else _)
  have hend : ∀ (status : Status) (message : String) (written : Bool),
      Follows allowed after (.rechecked plan run₀ t) (finish run status message written) :=
    fun _ => finish_follows rfl hsame.id (Status.next_of_writable hw _)
  split
  next => exact hend _ _ _
  next hcheck =>
    have htarget : run₀.target = (plan.position t).status := by
      rw [← hsame.target]
      exact (not_not.mp fun h => hcheck (.inl h)).symm
    cases run.expiresAt with
    | none => exact checkAvailable_follows hsame hw htarget actual
    | some expiresAt =>
      refine ⟨⟨plan, run₀, t, rfl⟩, fun now => ?_⟩
      show Follows allowed after (.rechecked plan run₀ t) (if _ then _ else _)
      split
      next => exact hend _ _ _
      next => exact checkAvailable_follows hsame hw htarget actual

omit hw in
/-- In the stage before the second check, an execution that is not written may end in any way. -/
theorem prepared_finish_follows (hw : run₀.status.writable = true) (status : Status) (message : String)
    (written : Bool) : Follows allowed after (.prepared plan run₀) (finish run status message written) :=
  finish_follows rfl hsame.id (Status.next_of_writable hw _) _ _

theorem checkCover_follows (actual : Int) (t : Time)
    (states : List ChannelState) : Follows allowed after (.prepared plan run₀) (checkCover plan run actual t states) := by
  have hfail := fun e => readFailure_follows (g := .prepared plan run₀) rfl hsame (Status.writable.live hw) e
  rw [checkCover]
  split
  next =>
    refine ⟨⟨plan, run₀, rfl⟩, fun answer => ?_⟩
    cases answer with
    | error e => exact hfail e
    | ok channels =>
      show Follows allowed after (.prepared plan run₀) (if _ then _ else _)
      split
      next => exact prepared_finish_follows hsame hw _ _ _
      next =>
        refine ⟨⟨plan, run₀, rfl⟩, fun answer => ?_⟩
        cases answer with
        | error e => exact hfail e
        | ok controls =>
          show Follows allowed after (.prepared plan run₀) (if _ then if _ then _ else _ else _)
          split
          next => split <;> exact prepared_finish_follows hsame hw _ _ _
          next => exact recheck_follows hsame hw actual
  next => exact recheck_follows hsame hw actual

theorem awaitRecovery_follows (model : String) :
    Follows allowed after (.prepared plan run₀) (awaitRecovery plan run model) := by
  have hfail := fun e => readFailure_follows (g := .prepared plan run₀) rfl hsame (Status.writable.live hw) e
  refine ⟨⟨plan, run₀, rfl⟩, fun answer => ?_⟩
  cases answer with
  | error e => exact hfail e
  | ok policy =>
    refine ⟨⟨plan, run₀, rfl⟩, fun answer => ?_⟩
    cases answer with
    | error e => exact hfail e
    | ok bases =>
      show Follows allowed after (.prepared plan run₀) (if _ then _ else _)
      split <;> exact prepared_finish_follows hsame hw _ _ _

theorem checkStates_follows (actual : Int) (t : Time)
    (states rest : List ChannelState) : Follows allowed after (.prepared plan run₀) (checkStates plan run actual t states rest) := by
  induction rest with
  | nil => exact checkCover_follows hsame hw actual t states
  | cons state rest ih =>
    rw [checkStates]
    split
    next => exact ih
    next =>
      split
      next => exact prepared_finish_follows hsame hw _ _ _
      next =>
        split
        next => exact awaitRecovery_follows hsame hw _
        next => exact ih

theorem switch_follows (actual : Int) (t : Time) :
    Follows allowed after (.prepared plan run₀) (switch plan run actual t) := by
  rw [switch]
  split
  next => exact prepared_finish_follows hsame hw _ _ _
  next =>
    refine ⟨⟨plan, run₀, rfl⟩, fun answer => ?_⟩
    cases answer with
    | error e => exact readFailure_follows rfl hsame (Status.writable.live hw) e
    | ok states => exact checkStates_follows hsame hw actual t states states

omit hw

omit hsame

theorem observe_follows (hlive : run₀.status.terminal = false) (t : Time) (answer : Option Int) :
    Follows allowed after (.prepared plan run₀) (observe plan run₀ t answer) := by
  -- An execution under way may fail, whether it was written or not.
  have hfailed : run₀.status.next .failed = true := by
    revert hlive
    cases run₀.status <;> decide
  cases answer with
  | none => exact finish_follows rfl rfl hfailed _ _
  | some actual =>
    rw [observe]
    split
    next => exact finish_follows rfl rfl hfailed _ _
    next =>
      split
      next hrunning =>
        split
        next => exact finish_follows rfl rfl (by rw [hrunning]; rfl) _ _
        next => exact finish_follows rfl rfl (by rw [hrunning]; rfl) _ _
      next hrunning =>
        have hw : run₀.status.writable = true := by simp [Status.writable, hlive, hrunning]
        have hsame : Same { run₀ with beforeStatus := actual } run₀ := ⟨rfl, rfl, rfl⟩
        show Follows allowed after (.prepared plan run₀) (if _ then _ else _)
        split
        next => exact prepared_finish_follows hsame hw _ _ _
        next => exact switch_follows hsame hw actual t

theorem execute_follows (hlive : run₀.status.terminal = false) (t : Time) :
    Follows allowed after (.prepared plan run₀) (execute plan run₀ t) := by
  have hfailed : run₀.status.next .failed = true := by
    revert hlive
    cases run₀.status <;> decide
  refine ⟨⟨plan, run₀, rfl⟩, fun answer => ?_⟩
  match answer with
  | .error e => exact finish_follows rfl rfl hfailed _ _
  | .ok none => exact finish_follows rfl rfl hfailed _ _
  | .ok (some false) => exact finish_follows rfl rfl hfailed _ _
  | .ok (some true) =>
    show Follows allowed after (.prepared plan run₀) (if _ then _ else _)
    split
    next => exact True.intro
    next =>
      refine ⟨.inl ⟨plan, run₀, rfl⟩, fun answer => ?_⟩
      cases answer with
      | error e => exact readFailure_follows rfl ⟨rfl, rfl, rfl⟩ hlive e
      | ok actual => exact observe_follows hlive t actual

theorem apply_follows : Follows allowed after .opening applyChannelSchedule := by
  refine ⟨rfl, fun answer => ?_⟩
  cases answer with
  | some e => exact True.intro
  | none =>
    refine ⟨rfl, fun answer => ?_⟩
    cases answer with
    | some e => exact True.intro
    | none =>
      refine ⟨rfl, fun answer => ?_⟩
      cases answer with
      | error e => exact True.intro
      | ok plan =>
        show Follows allowed after (.located plan) (if _ then _ else _)
        split
        next => exact True.intro
        next =>
          refine ⟨⟨plan, rfl⟩, fun t => ⟨rfl, fun answer => ?_⟩⟩
          match answer with
          | .error e => exact True.intro
          | .ok none => exact True.intro
          | .ok (some run) =>
            show Follows allowed after (.prepared plan run) (if _ then _ else _)
            split
            next => exact True.intro
            next hlive => exact execute_follows (by simpa using hlive) t

end Follows

/-! ### Runs of a call -/

/-- A request as it was served: the store before it, and the answer. -/
structure Served where
  store : Store
  request : Request
  answer : Answer request

/-- The store and what a call has requested so far. -/
structure Recorded where
  store : Store
  log : List Served

def record (s : Recorded) (q : Request) (a : Answer q) : Answer q × Recorded :=
  let served := serve s.store q a
  (served.1, ⟨served.2, s.log ++ [⟨s.store, q, served.1⟩]⟩)

/-- A snapshot of the site that shows the channel open may be stored at any time. -/
inductive Meanwhile
  | opened

def Meanwhile.apply (s : Store) : Meanwhile → Store
  | opened => { s with plan := s.plan.map fun p => { p with closedBySchedule := false } }

abbrev Turn := Dialogue.Turn Request Answer Meanwhile

def moveRecorded (s : Recorded) (m : Meanwhile) : Recorded := { s with store := m.apply s.store }

namespace Served

/-- The execution that was prepared. -/
def prepared : Served → Option Execution
  | ⟨_, .prepare .., .ok (some run)⟩ => some run
  | _ => none

/-- The remote controller was read. -/
def reads (e : Served) : Bool :=
  match e.request with
  | .read | .list => true
  | _ => false

def updates (e : Served) (id : ExecutionId) : Bool :=
  match e.request with
  | .update id' _ => decide (id' = id)
  | _ => false

def isUpdate (e : Served) : Bool :=
  match e.request with
  | .update .. => true
  | _ => false

end Served

/-- The execution that a call prepared. -/
def preparedIn (log : List Served) : List Execution := log.filterMap Served.prepared

def Loaded (plan : Plan) (log : List Served) : Prop := ∃ store, ⟨store, .load, .ok plan⟩ ∈ log

/-- The clock was read again, and nothing of the remote controller after that. -/
def Rechecked (plan : Plan) (now : Time) (log : List Served) : Prop :=
  ∃ before store later, log = before ++ ⟨store, .clock .recheck, now⟩ :: later ∧ Loaded plan before ∧ ∀ e ∈ later, e.reads = false

/-- The row was stored as running; before that, nothing had been written for it. -/
def Began (id : ExecutionId) (log : List Served) : Prop :=
  ∃ e ∈ log, (∃ r before now, e.request = .begin r before now ∧ r.id = id) ∧
    ∃ st, e.store.status id = some st ∧ st.writable = true

/-- An update of the remote channel, after what the call did before it. -/
structure UpdateOk (before : List Served) (store : Store) (id : ExecutionId) (target : Int) : Prop where
  prepared : ∃ run, preparedIn before = [run] ∧ run.id = id
  durable : store.status id = some .running
  began : Began id before
  only : ∀ e ∈ before, e.isUpdate = false
  rechecked : ∃ plan now, Rechecked plan now before ∧ target = (plan.position now).status

/-- What a request owes to those before it. -/
def EntryOk (before : List Served) (e : Served) : Prop :=
  match e.request with
  | .update id target => UpdateOk before e.store id target
  | .begin r _ _ => ∃ run, preparedIn before = [run] ∧ r.id = run.id ∧ e.store.status r.id = some run.status ∧
      run.status.writable = true
  | .finish r st _ _ _ => ∃ run st₀, preparedIn before = [run] ∧ r.id = run.id ∧ e.store.status r.id = some st₀ ∧ st₀.next st = true
  | _ => True

def Sound (log : List Served) : Prop := ∀ before e later, log = before ++ e :: later → EntryOk before e

theorem Sound.snoc {log : List Served} {e : Served} (h : Sound log) (he : EntryOk log e) : Sound (log ++ [e]) := by
  intro before x later hsplit
  rcases eq_nil_or_concat later with rfl | ⟨later', y, rfl⟩
  · obtain ⟨rfl, hx⟩ := append_inj' hsplit rfl
    cases hx
    exact he
  · rw [concat_eq_append, ← cons_append, ← append_assoc] at hsplit
    obtain ⟨hlog, -⟩ := append_inj' hsplit rfl
    exact h before x later' hlog

/-! ### What the stages say -/

/-- The row is in the store as the stage says, and the requests have led to it. -/
def At : Stage → Recorded → Prop
  | .opening, s => preparedIn s.log = [] ∧ ∀ e ∈ s.log, e.isUpdate = false
  | .located plan, s => preparedIn s.log = [] ∧ (∀ e ∈ s.log, e.isUpdate = false) ∧ Loaded plan s.log
  | .prepared plan run, s => preparedIn s.log = [run] ∧ (∀ e ∈ s.log, e.isUpdate = false) ∧ Loaded plan s.log ∧
      s.store.status run.id = some run.status
  | .rechecked plan run now, s => preparedIn s.log = [run] ∧ (∀ e ∈ s.log, e.isUpdate = false) ∧ Rechecked plan now s.log ∧
      s.store.status run.id = some run.status
  | .begun plan run now, s => preparedIn s.log = [run] ∧ (∀ e ∈ s.log, e.isUpdate = false) ∧ Rechecked plan now s.log ∧
      Began run.id s.log ∧ s.store.status run.id = some .running
  | .settling run, s => preparedIn s.log = [run] ∧ s.store.status run.id = some .running
  | .over_, s => (preparedIn s.log).length ≤ 1

structure Tied (start : Store) (g : Stage) (s : Recorded) : Prop where
  later : Later start s.store
  entries : ∀ e ∈ s.log, Later start e.store ∧ Later e.store s.store
  ordered : s.log.Pairwise fun e e' => Later e.store e'.store
  sound : Sound s.log
  stage : At g s

section Tied
variable {start : Store} {g : Stage} {s : Recorded}

theorem At.preparedIn_le (h : At g s) : (preparedIn s.log).length ≤ 1 := by
  cases g with
  | opening => simp [h.1]
  | located plan => simp [h.1]
  | prepared plan run => simp [h.1]
  | rechecked plan run now => simp [h.1]
  | begun plan run now => simp [h.1]
  | settling run => simp [h.1]
  | over_ => exact h

theorem At.row (h : At g s) {row : ExecutionId × Status} (hrow : g.row = some row) :
    ∃ run, preparedIn s.log = [run] ∧ row.1 = run.id ∧ s.store.status row.1 = some row.2 := by
  cases g with
  | opening => cases hrow
  | located plan => cases hrow
  | over_ => cases hrow
  | prepared plan run =>
    cases hrow
    exact ⟨run, h.1, rfl, h.2.2.2⟩
  | rechecked plan run now =>
    cases hrow
    exact ⟨run, h.1, rfl, h.2.2.2⟩
  | begun plan run now =>
    cases hrow
    exact ⟨run, h.1, rfl, h.2.2.2.2⟩
  | settling run =>
    cases hrow
    exact ⟨run, h.1, rfl, h.2⟩

/-- A served request extends the record. -/
theorem Tied.extend (h : Tied start g s) (q : Request) (a : Answer q) (hlater : Later s.store (serve s.store q a).2)
    (hentry : EntryOk s.log ⟨s.store, q, (serve s.store q a).1⟩) {g' : Stage} (hstage : At g' (record s q a).2) :
    Tied start g' (record s q a).2 where
  later := h.later.trans hlater
  entries e he := by
    rcases mem_append.mp he with he | he
    · exact ⟨(h.entries e he).1, (h.entries e he).2.trans hlater⟩
    · rw [mem_singleton.mp he]
      exact ⟨h.later, hlater⟩
  ordered := by
    refine pairwise_append.mpr ⟨h.ordered, pairwise_singleton _ _, fun e he e' he' => ?_⟩
    rw [mem_singleton.mp he']
    exact (h.entries e he).2
  sound := h.sound.snoc hentry
  stage := hstage

variable {e : Served}

theorem preparedIn_snoc (log : List Served) (he : e.prepared = none) : preparedIn (log ++ [e]) = preparedIn log := by
  simp [preparedIn, he]

variable {plan : Plan} {log : List Served}

theorem Loaded.snoc (h : Loaded plan log) (e : Served) : Loaded plan (log ++ [e]) := by
  obtain ⟨store, hmem⟩ := h
  exact ⟨store, mem_append_left _ hmem⟩

variable {now : Time}

theorem Rechecked.snoc (h : Rechecked plan now log) (he : e.reads = false) :
    Rechecked plan now (log ++ [e]) := by
  obtain ⟨before, store, later, rfl, hloaded, hlater⟩ := h
  refine ⟨before, store, later ++ [e], by simp, hloaded, fun x hx => ?_⟩
  rcases mem_append.mp hx with hx | hx
  · exact hlater x hx
  · rw [mem_singleton.mp hx]
    exact he

theorem isUpdate_snoc (h : ∀ e ∈ log, e.isUpdate = false) (he : e.isUpdate = false) :
    ∀ x ∈ log ++ [e], x.isUpdate = false := by
  intro x hx
  rcases mem_append.mp hx with hx | hx
  · exact h x hx
  · rw [mem_singleton.mp hx]
    exact he

/-- A request that prepares nothing, updates nothing and reads nothing after the second
check leaves the stage as it is, in a store with the same rows. -/
theorem At.quiet (h : At g s) (hprepared : e.prepared = none) (hupdate : e.isUpdate = false)
    (hreads : e.reads = true → (∃ plan run, g = .prepared plan run) ∨ ∃ run, g = .settling run) {store : Store}
    (hstore : store.executions = s.store.executions) : At g ⟨store, s.log ++ [e]⟩ := by
  have hp := preparedIn_snoc s.log hprepared
  have hstatus : ∀ id, store.status id = s.store.status id := fun id => by rw [Store.status, hstore]; rfl
  have hread : (∀ plan run, g ≠ .prepared plan run) → (∀ run, g ≠ .settling run) → e.reads = false := by
    intro h₁ h₂
    cases hr : e.reads with
    | false => rfl
    | true =>
      rcases hreads hr with ⟨plan, run, hg⟩ | ⟨run, hg⟩
      · exact absurd hg (h₁ plan run)
      · exact absurd hg (h₂ run)
  cases g with
  | opening => exact ⟨hp.trans h.1, isUpdate_snoc h.2 hupdate⟩
  | located plan => exact ⟨hp.trans h.1, isUpdate_snoc h.2.1 hupdate, h.2.2.snoc e⟩
  | prepared plan run => exact ⟨hp.trans h.1, isUpdate_snoc h.2.1 hupdate, h.2.2.1.snoc e, (hstatus _).trans h.2.2.2⟩
  | rechecked plan run now =>
    have hr := hread (fun _ _ h => by cases h) fun _ h => by cases h
    exact ⟨hp.trans h.1, isUpdate_snoc h.2.1 hupdate, h.2.2.1.snoc hr, (hstatus _).trans h.2.2.2⟩
  | begun plan run now =>
    have hr := hread (fun _ _ h => by cases h) fun _ h => by cases h
    obtain ⟨b, hb, hbegan⟩ := h.2.2.2.1
    exact ⟨hp.trans h.1, isUpdate_snoc h.2.1 hupdate, h.2.2.1.snoc hr, ⟨b, mem_append_left _ hb, hbegan⟩,
      (hstatus _).trans h.2.2.2.2⟩
  | settling run => exact ⟨hp.trans h.1, (hstatus _).trans h.2⟩
  | over_ =>
    show (preparedIn (s.log ++ [e])).length ≤ 1
    rw [hp]
    exact h

theorem Tied.move (h : Tied start g s) (m : Meanwhile) : Tied start g (moveRecorded s m) := by
  have hrows : (m.apply s.store).executions = s.store.executions := by cases m; rfl
  have hlater : Later s.store (m.apply s.store) := .of_executions hrows
  have hstatus : ∀ id, (m.apply s.store).status id = s.store.status id := fun id => by rw [Store.status, hrows]; rfl
  refine ⟨h.later.trans hlater, fun e he => ⟨(h.entries e he).1, (h.entries e he).2.trans hlater⟩, h.ordered, h.sound, ?_⟩
  have hstage := h.stage
  cases g with
  | opening => exact hstage
  | located plan => exact hstage
  | prepared plan run => exact ⟨hstage.1, hstage.2.1, hstage.2.2.1, (hstatus _).trans hstage.2.2.2⟩
  | rechecked plan run now => exact ⟨hstage.1, hstage.2.1, hstage.2.2.1, (hstatus _).trans hstage.2.2.2⟩
  | begun plan run now => exact ⟨hstage.1, hstage.2.1, hstage.2.2.1, hstage.2.2.2.1, (hstatus _).trans hstage.2.2.2.2⟩
  | settling run => exact ⟨hstage.1, (hstatus _).trans hstage.2⟩
  | over_ => exact hstage

/-- A request that leaves the store and the stage as they are. -/
theorem Tied.quiet (h : Tied start g s) {q : Request} {a : Answer q} (hstore : (serve s.store q a).2 = s.store)
    (hentry : ∀ answer, EntryOk s.log ⟨s.store, q, answer⟩) (hprepared : ∀ answer, Served.prepared ⟨s.store, q, answer⟩ = none)
    (hupdate : ∀ answer, Served.isUpdate ⟨s.store, q, answer⟩ = false)
    (hreads : ∀ answer, Served.reads ⟨s.store, q, answer⟩ = true → (∃ plan run, g = .prepared plan run) ∨ ∃ run, g = .settling run) :
    Tied start g (record s q a).2 := by
  refine h.extend q a (.of_executions (by rw [hstore])) (hentry _) ?_
  exact h.stage.quiet (hprepared _) (hupdate _) (hreads _) (by rw [hstore])

theorem Tied.load (h : Tied start .opening s) (a : Answer .load) :
    Tied start (after .opening .load (record s .load a).1) (record s .load a).2 := by
  cases a with
  | error e => exact h.quiet rfl (fun _ => True.intro) (fun _ => rfl) (fun _ => rfl) fun _ hr => by cases hr
  | ok plan =>
    refine h.extend .load (.ok plan) (.refl _) True.intro ?_
    have hquiet : At .opening (record s .load (.ok plan)).2 := h.stage.quiet rfl rfl (fun hr => by cases hr) rfl
    cases hl : loadChannelSchedule s.store with
    | error e =>
      simp only [record, serve, hl, after]
      simpa only [record, serve, hl] using hquiet
    | ok plan' =>
      simp only [record, serve, hl, after] at hquiet ⊢
      exact ⟨hquiet.1, hquiet.2, s.store, mem_append_right _ mem_cons_self⟩

theorem Err.leaves_later {before after : Store} (h : Later before after) (e : Err) : Later before (e.leaves before after) := by
  rw [Err.leaves]
  split
  next => exact h
  next => exact .refl _

theorem Tied.prepare (h : Tied start (.located plan) s) (now : Time) (a : Answer (.prepare plan now)) :
    Tied start (after (.located plan) (.prepare plan now) (record s (.prepare plan now) a).1) (record s (.prepare plan now) a).2 := by
  obtain ⟨hlater, hfound⟩ := prepare_spec s.store plan now
  obtain ⟨hprepared, hupdate, hloaded⟩ := h.stage
  cases a with
  | error e =>
    refine h.extend (.prepare plan now) (.error e) (Err.leaves_later hlater e) True.intro ?_
    exact ⟨(preparedIn_snoc _ rfl).trans hprepared, isUpdate_snoc hupdate rfl, hloaded.snoc _⟩
  | ok answer =>
    refine h.extend (.prepare plan now) (.ok answer) hlater True.intro ?_
    cases hrun : (prepareChannelSchedule s.store plan now).2 with
    | none =>
      simp only [record, serve, hrun, after]
      exact ⟨(preparedIn_snoc _ rfl).trans hprepared, isUpdate_snoc hupdate rfl, hloaded.snoc _⟩
    | some run =>
      simp only [record, serve, hrun, after]
      refine ⟨?_, isUpdate_snoc hupdate rfl, hloaded.snoc _, hfound run hrun⟩
      rw [preparedIn, filterMap_append]
      exact congrArg (· ++ [run]) hprepared

theorem Tied.begin {run r : Execution} {now t : Time} {before : Int} (h : Tied start (.rechecked plan run now) s)
    (hid : r.id = run.id) (hw : run.status.writable = true) (a : Answer (.begin r before t)) :
    Tied start (after (.rechecked plan run now) (.begin r before t) (record s (.begin r before t) a).1)
      (record s (.begin r before t) a).2 := by
  obtain ⟨hprepared, hupdate, hrechecked, hstatus⟩ := h.stage
  have hrow : s.store.status r.id = some run.status := by rw [hid]; exact hstatus
  have hlater : Later s.store (beginChannelScheduleWrite s.store r before t) :=
    .update hrow (Status.next_of_writable hw _) _ _ _ _ _
  have hentry : ∀ answer, EntryOk s.log ⟨s.store, .begin r before t, answer⟩ := fun _ => ⟨run, hprepared, hid, hrow, hw⟩
  cases a with
  | some e =>
    refine h.extend (.begin r before t) (some e) (Err.leaves_later hlater e) (hentry _) ?_
    show (preparedIn (s.log ++ [_])).length ≤ 1
    rw [preparedIn_snoc _ rfl, hprepared]
    exact Nat.le_refl 1
  | none =>
    refine h.extend (.begin r before t) none hlater (hentry _) ?_
    refine ⟨(preparedIn_snoc _ rfl).trans hprepared, isUpdate_snoc hupdate rfl, hrechecked.snoc rfl, ?_, ?_⟩
    · exact ⟨_, mem_append_right _ mem_cons_self, ⟨r, before, t, rfl, hid⟩, run.status, hstatus, hw⟩
    · show (beginChannelScheduleWrite s.store r before t).status run.id = _
      rw [beginChannelScheduleWrite, status_updateExecution, hstatus]
      simp [hid]

theorem Tied.update {run : Execution} (h : Tied start (.begun plan run now) s)
    (a : Answer (.update run.id (plan.position now).status)) :
    Tied start (.settling run) (record s (.update run.id (plan.position now).status) a).2 := by
  obtain ⟨hprepared, hupdate, hrechecked, hbegan, hstatus⟩ := h.stage
  refine h.extend (.update run.id (plan.position now).status) a (.refl _) ?_ ⟨(preparedIn_snoc _ rfl).trans hprepared, hstatus⟩
  exact ⟨⟨run, hprepared, rfl⟩, hstatus, hbegan, hupdate, plan, now, hrechecked, rfl⟩

theorem Tied.finish {r : Execution} {st : Status} {message : String} {written : Bool} (h : Tied start g s)
    {row : ExecutionId × Status} (hrow : g.row = some row) (hid : r.id = row.1) (hnext : row.2.next st = true)
    (a : Answer (.finish r st message written now)) : Tied start .over_ (record s (.finish r st message written now) a).2 := by
  obtain ⟨run, hprepared, hrun, hstatus⟩ := h.stage.row hrow
  rw [← hid] at hrun hstatus
  refine h.extend (.finish r st message written now) a ?_ ⟨run, row.2, hprepared, hrun, hstatus, hnext⟩ ?_
  · simp only [serve, finishChannelSchedule]
    cases s.store.plan with
    | none => exact .refl _
    | some plan =>
      by_cases hrevision : plan.revision ≠ r.revision
      · simp only [if_pos hrevision]
        exact .refl _
      · simp only [if_neg hrevision]
        cases a with
        | none => exact .update hstatus hnext _ _ _ _ _
        | some e => exact Err.leaves_later (.update hstatus hnext _ _ _ _ _) e
  · show (preparedIn (s.log ++ [_])).length ≤ 1
    rw [preparedIn_snoc _ rfl]
    exact h.stage.preparedIn_le

theorem Tied.read (h : Tied start g s) (hg : allowed g .read) (a : Answer .read) : Tied start (after g .read a) (record s .read a).2 := by
  rcases hg with ⟨plan, run, rfl⟩ | ⟨plan, run, now, rfl⟩ | ⟨run, rfl⟩
  · exact h.quiet rfl (fun _ => True.intro) (fun _ => rfl) (fun _ => rfl) fun _ _ => .inl ⟨plan, run, rfl⟩
  · obtain ⟨hprepared, -, -, -, hstatus⟩ := h.stage
    exact h.extend .read a (.refl _) True.intro ⟨(preparedIn_snoc _ rfl).trans hprepared, hstatus⟩
  · exact h.quiet rfl (fun _ => True.intro) (fun _ => rfl) (fun _ => rfl) fun _ _ => .inr ⟨run, rfl⟩

theorem Tied.clock {moment : Moment} (h : Tied start g s) (hg : allowed g (.clock moment)) (a : Answer (.clock moment)) :
    Tied start (after g (.clock moment) a) (record s (.clock moment) a).2 := by
  have hquiet : Tied start g (record s (.clock moment) a).2 :=
    h.quiet rfl (fun _ => True.intro) (fun _ => rfl) (fun _ => rfl) fun _ hr => by cases hr
  cases moment with
  | start => exact hquiet
  | expiry => exact hquiet
  | beginning => exact hquiet
  | finishing => exact hquiet
  | recheck =>
    obtain ⟨plan, run, rfl⟩ := hg
    obtain ⟨hprepared, hupdate, hloaded, hstatus⟩ := h.stage
    refine h.extend (.clock .recheck) a (.refl _) True.intro
      ⟨(preparedIn_snoc _ rfl).trans hprepared, isUpdate_snoc hupdate rfl, ?_, hstatus⟩
    exact ⟨s.log, s.store, [], rfl, hloaded, by simp⟩

/-- Every request that a stage allows leads to the next stage. -/
theorem Tied.serve (h : Tied start g s) (q : Request) (a : Answer q) (hg : allowed g q) :
    Tied start (after g q (record s q a).1) (record s q a).2 := by
  cases q with
  | load =>
    obtain rfl : g = .opening := hg
    exact h.load a
  | prepare plan now =>
    obtain rfl : g = .located plan := hg
    exact h.prepare now a
  | begin r before t =>
    obtain ⟨plan, run, now, rfl, hid, hw, -⟩ := hg
    exact h.begin hid hw a
  | update id target =>
    obtain ⟨plan, run, now, rfl, rfl, rfl⟩ := hg
    exact h.update a
  | finish r st message written now =>
    obtain ⟨row, hrow, hid, hnext⟩ := hg
    exact h.finish hrow hid hnext a
  | read => exact h.read hg a
  | clock moment => exact h.clock hg a
  | list =>
    obtain ⟨plan, run, rfl⟩ := hg
    exact h.quiet rfl (fun _ => True.intro) (fun _ => rfl) (fun _ => rfl) fun _ _ => .inl ⟨plan, run, rfl⟩
  | _ => exact h.quiet rfl (fun _ => True.intro) (fun _ => rfl) (fun _ => rfl) fun _ hr => by cases hr

theorem Tied.opening (store : Store) : Tied store .opening ⟨store, []⟩ :=
  ⟨.refl store, by simp, .nil, fun before e later hsplit => by simp at hsplit, rfl, by simp⟩

end Tied

/-! ### Calls and edits -/

/-- A call, or an edit without requests: the store at its start, and what was requested. -/
structure Episode where
  start : Store
  log : List Served

def Episode.stores (ep : Episode) : List Store := ep.start :: ep.log.map Served.store

structure World where
  store : Store
  episodes : List Episode

/-- A call may stop at any request. An edit may be refused, or fail with or without being
committed. -/
inductive Event
  | call (turns : List Turn)
  | save (edit : Edit) (committed : Bool)
  | delete (revision : Int) (expectedUpdatedAt : Option Time) (now : Time) (committed : Bool)
  | meanwhile (m : Meanwhile)

namespace World

/-- The call with its record. -/
def call (store : Store) (turns : List Turn) : Recorded := applyChannelSchedule.run moveRecorded record ⟨store, []⟩ turns

/-- What an event makes of the store, and the requests of a call. -/
def outcome (store : Store) : Event → Recorded
  | .call turns => call store turns
  | .save edit committed => ⟨if committed then (saveChannelSchedule store edit).getD store else store, []⟩
  | .delete revision expectedUpdatedAt now committed =>
    ⟨if committed then (deleteChannelSchedule store revision expectedUpdatedAt now).getD store else store, []⟩
  | .meanwhile m => ⟨m.apply store, []⟩

def step (w : World) (event : Event) : World :=
  let result := outcome w.store event
  ⟨result.store, w.episodes ++ [⟨w.store, result.log⟩]⟩

def run (w : World) (events : List Event) : World := events.foldl step w

/-- All stores, in the order in which they were. -/
def stores (w : World) : List Store := w.episodes.flatMap Episode.stores

end World

structure Good (w : World) : Prop where
  ordered : w.stores.Pairwise Later
  current : ∀ s ∈ w.stores, Later s w.store
  sound : ∀ ep ∈ w.episodes, Sound ep.log ∧ (preparedIn ep.log).length ≤ 1

theorem World.call_tied (store : Store) (turns : List Turn) : ∃ g, Tied store g (World.call store turns) :=
  apply_follows.run (fun _ _ m h => h.move m) (fun _ _ q a h hg => h.serve q a hg) turns (Tied.opening store)

/-- Every event leaves later rows, and a call requests what it may. -/
theorem World.outcome_spec (store : Store) (event : Event) : Later store (World.outcome store event).store ∧
      (∀ e ∈ (World.outcome store event).log, Later store e.store ∧ Later e.store (World.outcome store event).store) ∧
      (World.outcome store event).log.Pairwise (fun e e' => Later e.store e'.store) ∧
      Sound (World.outcome store event).log ∧ (preparedIn (World.outcome store event).log).length ≤ 1 := by
  have hsilent : ∀ s, Later store s → Later store s ∧ (∀ e ∈ ([] : List Served), Later store e.store ∧ Later e.store s) ∧
      ([] : List Served).Pairwise (fun e e' => Later e.store e'.store) ∧ Sound [] ∧ (preparedIn []).length ≤ 1 :=
    fun s h => ⟨h, by simp, .nil, fun before e later hsplit => by simp at hsplit, Nat.zero_le _⟩
  cases event with
  | call turns =>
    obtain ⟨g, h⟩ := World.call_tied store turns
    exact ⟨h.later, h.entries, h.ordered, h.sound, h.stage.preparedIn_le⟩
  | save edit committed =>
    apply hsilent
    show Later store (if committed then (saveChannelSchedule store edit).getD store else store)
    split
    next =>
      cases hs : saveChannelSchedule store edit with
      | none => exact .refl store
      | some s => exact save_later hs
    next => exact .refl store
  | delete revision expectedUpdatedAt now committed =>
    apply hsilent
    show Later store (if committed then (deleteChannelSchedule store revision expectedUpdatedAt now).getD store else store)
    split
    next =>
      cases hs : deleteChannelSchedule store revision expectedUpdatedAt now with
      | none => exact .refl store
      | some s => exact delete_later hs
    next => exact .refl store
  | meanwhile m =>
    apply hsilent
    exact .of_executions (by cases m; rfl)

variable {w : World}

theorem Good.step (h : Good w) (event : Event) : Good (w.step event) := by
  obtain ⟨hlater, hentries, hordered, hsound⟩ := World.outcome_spec w.store event
  have hstores : (w.step event).stores = w.stores ++ Episode.stores ⟨w.store, (World.outcome w.store event).log⟩ := by
    simp [World.stores, World.step]
  have hnew : ∀ s ∈ Episode.stores ⟨w.store, (World.outcome w.store event).log⟩,
      Later w.store s ∧ Later s (World.outcome w.store event).store := by
    intro s hs
    rcases mem_cons.mp hs with rfl | hs
    · exact ⟨.refl _, hlater⟩
    · obtain ⟨e, he, rfl⟩ := mem_map.mp hs
      exact hentries e he
  constructor
  case ordered =>
    rw [hstores]
    refine pairwise_append.mpr ⟨h.ordered, ?_, fun s hs s' hs' => (h.current s hs).trans (hnew s' hs').1⟩
    refine pairwise_cons.mpr ⟨fun s hs => (hnew s (mem_cons_of_mem _ hs)).1, ?_⟩
    exact pairwise_map.mpr hordered
  case current =>
    intro s hs
    rw [hstores] at hs
    rcases mem_append.mp hs with hs | hs
    · exact (h.current s hs).trans hlater
    · exact (hnew s hs).2
  case sound =>
    intro ep hep
    rcases mem_append.mp hep with hep | hep
    · exact h.sound ep hep
    · rw [mem_singleton.mp hep]
      exact hsound

theorem Good.run (h : Good w) (events : List Event) : Good (w.run events) := by
  induction events generalizing w with
  | nil => exact h
  | cons event events ih => exact ih (h.step event)

/-! ### What follows -/

variable {id : ExecutionId}

/-- A row that was running is not written again. -/
theorem Later.not_writable {s s' : Store} (h : Later s s') (hrunning : s.status id = some .running) {st : Status}
    (hst : s'.status id = some st) : st.writable = false := by
  obtain ⟨st', hst', hnext⟩ := h id _ hrunning
  rw [hst, Option.some_inj] at hst'
  subst hst'
  revert hnext
  cases st <;> decide

theorem Later.settled {s s' : Store} (h : Later s s') (hrunning : s.status id = some .running) :
    ∃ st ∈ [Status.running, .succeeded, .unknown, .failed, .superseded], s'.status id = some st := by
  obtain ⟨st, hst, hnext⟩ := h id _ hrunning
  refine ⟨st, ?_, hst⟩
  revert hnext
  cases st <;> decide

variable {log : List Served} {e : Served}

theorem Sound.entry (h : Sound log) (he : e ∈ log) :
    ∃ before later, log = before ++ e :: later ∧ EntryOk before e := by
  obtain ⟨before, later, rfl⟩ := append_of_mem he
  exact ⟨before, later, rfl, h before e later rfl⟩

theorem Served.updates_eq (h : e.updates id = true) : ∃ target, e.request = .update id target := by
  obtain ⟨store, q, a⟩ := e
  cases q <;> first | cases h | skip
  next id' target =>
    have : id' = id := by simpa [updates] using h
    exact ⟨target, by rw [this]⟩

theorem Served.isUpdate_eq (h : e.isUpdate = true) : ∃ id target, e.request = .update id target := by
  obtain ⟨store, q, a⟩ := e
  cases q with
  | update id target => exact ⟨id, target, rfl⟩
  | _ => simp [isUpdate] at h

theorem EntryOk.update {before : List Served} (h : EntryOk before e) {target : Int}
    (he : e.request = .update id target) : UpdateOk before e.store id target := by
  rw [EntryOk, he] at h
  exact h

/-- A call updates the remote channel once. -/
theorem Sound.pairwise (h : Sound log) : log.Pairwise fun e e' => ∀ id, ¬ (e.updates id = true ∧ e'.updates id = true) := by
  induction log using List.reverseRecOn with
  | nil => exact .nil
  | append_singleton log e ih =>
    have hlog : Sound log := fun before x later hsplit => h before x (later ++ [e]) (by simp [hsplit])
    refine pairwise_append.mpr ⟨ih hlog, pairwise_singleton _ _, ?_⟩
    intro x hx e' he' id ⟨hux, hue⟩
    rw [mem_singleton.mp he'] at hue
    obtain ⟨target, hreq⟩ := Served.updates_eq hue
    have honly := ((h log e [] rfl).update hreq).only x hx
    obtain ⟨target', hreq'⟩ := Served.updates_eq hux
    simp [Served.isUpdate, hreq'] at honly

/-- In an episode that updates the channel, the row was not written before. -/
theorem Sound.began (h : Sound log) (he : e ∈ log) (hu : e.updates id = true) :
    e.store.status id = some .running ∧ ∃ b ∈ log, ∃ st, b.store.status id = some st ∧ st.writable = true := by
  obtain ⟨target, hreq⟩ := Served.updates_eq hu
  obtain ⟨before, later, rfl, hentry⟩ := h.entry he
  have hupdate := hentry.update hreq
  obtain ⟨b, hb, -, hwritable⟩ := hupdate.began
  exact ⟨hupdate.durable, b, mem_append_left _ hb, hwritable⟩

theorem Episode.mem_stores {ep : Episode} (h : e ∈ ep.log) : e.store ∈ ep.stores :=
  mem_cons_of_mem _ (mem_map_of_mem h)

theorem Good.once (h : Good w) (id : ExecutionId) :
    ((w.episodes.flatMap Episode.log).filter fun e => e.updates id).length ≤ 1 := by
  have hpairs : (w.episodes.flatMap Episode.log).Pairwise fun e e' => ∀ id, ¬ (e.updates id = true ∧ e'.updates id = true) := by
    refine pairwise_flatMap.mpr ⟨fun ep hep => (h.sound ep hep).1.pairwise, ?_⟩
    refine (pairwise_flatMap.mp h.ordered).2.imp_of_mem ?_
    intro ep ep' hep hep' hlater x hx y hy id ⟨hux, huy⟩
    obtain ⟨hrunning, -⟩ := (h.sound ep hep).1.began hx hux
    obtain ⟨-, b, hb, st, hst, hwritable⟩ := (h.sound ep' hep').1.began hy huy
    have := (hlater x.store (Episode.mem_stores hx) b.store (Episode.mem_stores hb)).not_writable hrunning hst
    rw [hwritable] at this
    cases this
  have hfiltered := (hpairs.filter fun e => e.updates id)
  generalize hl : ((w.episodes.flatMap Episode.log).filter fun e => e.updates id) = updates at hfiltered
  match updates with
  | [] => exact Nat.zero_le 1
  | [e] => exact Nat.le_refl 1
  | e :: e' :: rest =>
    have hmem : ∀ x ∈ e :: e' :: rest, x.updates id = true := by
      intro x hx
      rw [← hl] at hx
      exact (mem_filter.mp hx).2
    have := (pairwise_cons.mp hfiltered).1 e' mem_cons_self id
    exact absurd ⟨hmem e mem_cons_self, hmem e' (by simp)⟩ this

/-- A call for an execution that was running before it. -/
theorem Good.readsOnly (h : Good w) {before later : List Episode} {ep : Episode} (hsplit : w.episodes = before ++ ep :: later)
    (hrunning : ∃ s ∈ before.flatMap Episode.stores ++ [ep.start], s.status id = some .running) {run : Execution}
    (hrun : run ∈ preparedIn ep.log) (hid : run.id = id) (he : e ∈ ep.log) :
    e.isUpdate = false ∧ ∀ r n t, e.request ≠ .begin r n t := by
  obtain ⟨s, hs, hrunning⟩ := hrunning
  have hep : ep ∈ w.episodes := by simp [hsplit]
  obtain ⟨hsound, hone⟩ := h.sound ep hep
  have hordered := h.ordered
  rw [World.stores, hsplit, flatMap_append, flatMap_cons] at hordered
  obtain ⟨-, htail, hacross⟩ := pairwise_append.mp hordered
  have hlater : ∀ x ∈ ep.log, Later s x.store := by
    intro x hx
    rcases mem_append.mp hs with hs | hs
    · exact hacross s hs x.store (mem_append_left _ (Episode.mem_stores hx))
    · rw [mem_singleton.mp hs]
      have := (pairwise_append.mp htail).1
      exact (pairwise_cons.mp this).1 x.store (mem_map_of_mem hx)
  -- What is prepared in the episode is `run` alone.
  have hsame : ∀ before' later' x run', ep.log = before' ++ x :: later' → preparedIn before' = [run'] → run'.id = id := by
    intro before' later' x run' hlog hprepared
    rw [hlog, preparedIn, filterMap_append] at hone hrun
    have hb : before'.filterMap Served.prepared = [run'] := hprepared
    rw [hb] at hone hrun
    have hnil : (x :: later').filterMap Served.prepared = [] := by
      rw [length_append, length_singleton] at hone
      exact length_eq_zero_iff.mp (by omega)
    rw [hnil, append_nil, mem_singleton] at hrun
    rw [← hrun, hid]
  obtain ⟨before', later', hlog, hentry⟩ := hsound.entry he
  constructor
  · cases hu : e.isUpdate with
    | false => rfl
    | true =>
      obtain ⟨id', target, hreq⟩ := Served.isUpdate_eq hu
      have hupdate := hentry.update hreq
      obtain ⟨run', hprepared, hid'⟩ := hupdate.prepared
      have hsid := hsame before' later' e run' hlog hprepared
      obtain ⟨b, hb, -, st, hst, hwritable⟩ := hupdate.began
      rw [← hid', hsid] at hst
      have := (hlater b (by simp [hlog, hb])).not_writable hrunning hst
      rw [hwritable] at this
      cases this
  · intro r n t hreq
    rw [EntryOk, hreq] at hentry
    obtain ⟨run', hprepared, hrid, hst, hwritable⟩ := hentry
    have hsid := hsame before' later' e run' hlog hprepared
    rw [hrid, hsid] at hst
    have := (hlater e he).not_writable hrunning hst
    rw [hwritable] at this
    cases this

/-- What the executions of a channel owe. -/
structure WrittenOnce (w : World) : Prop where
  /-- At most one update for an execution. -/
  once : ∀ id, ((w.episodes.flatMap Episode.log).filter fun e => e.updates id).length ≤ 1
  /-- An update finds its row running, and its target is the status that the plan asks for at the
  second check, after which the remote channel was not read. -/
  update : ∀ ep ∈ w.episodes, ∀ before e later id target, ep.log = before ++ e :: later → e.request = .update id target →
    e.store.status id = some .running ∧ ∃ plan now, Rechecked plan now before ∧ target = (plan.position now).status
  /-- A row that was running stays so or comes to one of four ends. -/
  settled : ∀ earlier s later id, w.stores ++ [w.store] = earlier ++ s :: later → s.status id = some .running →
    ∀ s' ∈ later, ∃ st ∈ [Status.running, .succeeded, .unknown, .failed, .superseded], s'.status id = some st
  /-- Later calls for it neither update the channel nor begin to. -/
  readsOnly : ∀ before ep later id, w.episodes = before ++ ep :: later →
    (∃ s ∈ before.flatMap Episode.stores ++ [ep.start], s.status id = some .running) →
    (∃ run ∈ preparedIn ep.log, run.id = id) → ∀ e ∈ ep.log, e.isUpdate = false ∧ ∀ r n t, e.request ≠ .begin r n t

theorem schedule_written_once (store : Store) (events : List Event) : WrittenOnce (World.run ⟨store, []⟩ events) := by
  have h : Good (World.run ⟨store, []⟩ events) := Good.run ⟨.nil, by simp [World.stores], by simp⟩ events
  generalize World.run ⟨store, []⟩ events = w at h
  constructor
  case once => exact h.once
  case update =>
    intro ep hep before e later id target hlog hreq
    have hupdate := ((h.sound ep hep).1 before e later hlog).update hreq
    exact ⟨hupdate.durable, hupdate.rechecked⟩
  case settled =>
    intro earlier s later id hsplit hrunning s' hs'
    have hordered : (w.stores ++ [w.store]).Pairwise Later := by
      refine pairwise_append.mpr ⟨h.ordered, pairwise_singleton _ _, fun s hs s' hs' => ?_⟩
      rw [mem_singleton.mp hs']
      exact h.current s hs
    rw [hsplit] at hordered
    have htail := (pairwise_append.mp hordered).2.1
    exact ((pairwise_cons.mp htail).1 s' hs').settled hrunning
  case readsOnly =>
    intro before ep later id hsplit hrunning hprepared e he
    obtain ⟨run, hrun, hid⟩ := hprepared
    exact h.readsOnly hsplit hrunning hrun hid he

/-- **The row of an execution stays and moves on**; a terminal one is final. -/
theorem executions_advance (store : Store) (events : List Event) :
    let w := World.run ⟨store, []⟩ events
    (w.stores ++ [w.store]).Pairwise Later := by
  have h : Good (World.run ⟨store, []⟩ events) := Good.run ⟨.nil, by simp [World.stores], by simp⟩ events
  exact pairwise_append.mpr ⟨h.ordered, pairwise_singleton _ _, by simpa using h.current⟩

end ControlTower.Schedule
