import ControlTower.Billing.Jobs
import ControlTower.Billing.Pages
import Mathlib.Data.Prod.Lex

/-! The steps of one bill, page by page, with the spool of their requests.

A page is read from the source after the cursor of its step, written to the spool
under the position of its last row, and then added to the totals in one transaction
that also moves the cursor. The source may grow between any two calls, each call may
fail, a store call may commit and report an error, and the process may stop: the step
is then claimed again, and goes on from the cursor that was committed. -/
namespace ControlTower.Billing
open Go Data

/-- `LogCursor`, in the order of `ORDER BY created_at, id`. -/
abbrev LogCursor := Int ×ₗ Int

def LogRecord.position (log : LogRecord) : LogCursor := toLex (log.createdUnix, log.id)

/-- What the job fixes: the ranges of its steps in seconds, one after the other, the
rows that its queries ask for and the terms of its charges. -/
structure Plan where
  ranges : List (Int × Int)
  apart : ranges.Pairwise fun a b => a.2 ≤ b.1
  pageSize : Nat
  sized : 0 < pageSize
  archive : Bool
  wanted : LogRecord → Bool
  terms : Terms

/-- The log is one that the step reads. -/
def Plan.has (plan : Plan) (n : Nat) (log : LogRecord) : Bool :=
  plan.wanted log && plan.ranges[n]?.any fun r => decide (r.1 ≤ log.createdUnix) && decide (log.createdUnix < r.2)

/-- A page of the spool: the directory of its step, and the name after its last row. -/
structure PageFile where
  step : Nat
  cursor : LogCursor
  rows : List RequestDetail
  deriving DecidableEq

def PageFile.path (f : PageFile) : Nat ×ₗ LogCursor := toLex (f.step, f.cursor)

/-- The call that the worker makes next on its step. -/
inductive StepWorker
  | idle
  /-- The next page is read. -/
  | claimed (n : Nat)
  /-- The page is written to the spool. -/
  | read (n : Nat) (page : List LogRecord) (rows : PageRows)
  /-- The page is added to the totals. -/
  | spooled (n : Nat) (page : List LogRecord) (rows : PageRows)
  | completing (n : Nat)

structure Spooling (γ : Type) where
  source : Table (fun log : LogRecord => log.id)
  cursors : Nat → LogCursor
  complete : Nat → Bool
  compact : CompactTotals γ
  spool : Table PageFile.path
  worker : StepWorker
  /-- The pages whose transaction has committed, with their steps. -/
  committed : List (Nat × List LogRecord)

inductive SpoolEvent
  | grow (log : LogRecord)
  | claim (n : Nat)
  | read (ok : Bool)
  | spool (ok : Bool)
  | append (call : Call) (yields : Bool)
  | complete (call : Call)
  | stop

/-- The cursor after a page. -/
def pageLast (page : List LogRecord) : LogCursor := (page.getLast?.map LogRecord.position).getD (toLex (0, 0))

namespace Spooling
variable {γ : Type}

/-- What the source has after the cursor of the step. -/
def ahead (plan : Plan) (s : Spooling γ) (n : Nat) : List LogRecord :=
  s.source.scan LogRecord.position fun log => plan.has n log && decide (s.cursors n < log.position)

def page (plan : Plan) (s : Spooling γ) (n : Nat) : List LogRecord := (s.ahead plan n).take plan.pageSize

/-- `WritePage`, which leaves out an empty page. -/
def writePage (spool : Table PageFile.path) (n : Nat) (cursor : LogCursor) (rows : List RequestDetail) :
    Table PageFile.path :=
  if rows.isEmpty then spool else spool.put ⟨n, cursor, rows⟩

/-- `OpenPages`: the files in the order of their paths. -/
def openPages (s : Spooling γ) : List PageFile := s.spool.scan PageFile.path fun _ => true

/-- The rows of the detail files. -/
def details (s : Spooling γ) : List RequestDetail := s.openPages.flatMap PageFile.rows

/-- A row is only added after the committed cursor of its step. -/
def grow (plan : Plan) (s : Spooling γ) (log : LogRecord) : Spooling γ :=
  if (s.source.find log.id).isNone ∧
      ∀ n ∈ List.range plan.ranges.length, plan.has n log → s.cursors n < log.position then
    { s with source := s.source.put log }
  else s

/-- The worker after it has read a page. -/
def taken (plan : Plan) (n : Nat) (page : List LogRecord) : StepWorker :=
  if page.isEmpty then .completing n
  else match plan.terms.page page with
    | none => .idle
    | some rows => .read n page rows

variable [DecidableEq γ] (collate : String → γ)

/-- `AppendBillingHour` on the totals and the cursor. -/
def appendPage (s : Spooling γ) (n : Nat) (page : List LogRecord) (rows : PageRows) : Spooling γ :=
  { s with
    compact := appendCompact collate s.compact rows.requestDetails
    cursors := Function.update s.cursors n (pageLast page)
    committed := s.committed ++ [(n, page)] }

def step (plan : Plan) (s : Spooling γ) : SpoolEvent → Spooling γ
  | .grow log => s.grow plan log
  | .claim n =>
    match s.worker with
    | .idle => if n < plan.ranges.length ∧ s.complete n = false then { s with worker := .claimed n } else s
    | _ => s
  | .read ok =>
    match s.worker with
    | .claimed n => { s with worker := if ok then taken plan n (s.page plan n) else .idle }
    | _ => s
  | .spool ok =>
    match s.worker with
    | .read n page rows =>
      if ok then
        { s with
          spool := writePage s.spool n (pageLast page) rows.requestDetails
          worker := .spooled n page rows }
      else { s with worker := .idle }
    | _ => s
  | .append call yields =>
    match s.worker with
    | .spooled n page rows =>
      let next : StepWorker :=
        if !call.reports then .idle
        else if decide (page.length < plan.pageSize) && !plan.archive then .completing n
        else if yields then .idle
        else .claimed n
      { (if call.commits then s.appendPage collate n page rows else s) with worker := next }
    | _ => s
  | .complete call =>
    match s.worker with
    | .completing n =>
      { s with complete := if call.commits then Function.update s.complete n true else s.complete, worker := .idle }
    | _ => s
  | .stop => { s with worker := .idle }

def start : Spooling γ where
  source := Table.empty
  cursors := fun _ => toLex (0, 0)
  complete := fun _ => false
  compact := Table.empty
  spool := Table.empty
  worker := .idle
  committed := []

def run (plan : Plan) (s : Spooling γ) (events : List SpoolEvent) : Spooling γ := events.foldl (step collate plan) s

/-- The logs of the committed pages. -/
def committedLogs (s : Spooling γ) : List LogRecord := s.committed.flatMap Prod.snd

/-- The requests that the committed pages charge. -/
def chargeable (plan : Plan) (s : Spooling γ) : List RequestDetail :=
  s.committedLogs.filterMap plan.terms.chargedAs

end Spooling

end ControlTower.Billing
