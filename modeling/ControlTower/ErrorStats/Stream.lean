import ControlTower.Data.Tally
import ControlTower.Go.Time

/-! The agent's stream of error statistics.

A page of log events is counted by minute, user, channel, model and error code. The
counts wait in a queue of batches until the server has taken them; one snapshot holds
the queue and the watermark of the log, and is saved as a whole. What cannot be counted
or has to leave the queue is added to `dropped`, and a notice of the loss takes
precedence over the queue. `Flush` sends without the lock of the state, so pages may be
recorded while a batch is on its way.

How a status code is read off an error text is a parameter, and so is the order in which
a page's counts come out of their map. -/
namespace ControlTower.ErrorStats
open Go Data

def maxRows : Nat := 2000

def maxPendingRows : Nat := 8000

def maxBatches : Nat := 64

structure Row where
  minute : Time
  userId : Int
  channelId : Int
  model : String
  code : String
  count : Int
  deriving DecidableEq

structure Batch where
  instanceId : String
  id : String
  startedAt : Time
  observedAt : Time
  lastLossAt : Option Time
  coveredUntil : Option Time
  dropped : Int
  rows : List Row
  deriving DecidableEq

def Batch.count (b : Batch) : Int := (b.rows.map Row.count).sum

structure Snapshot where
  activated : Bool
  instanceId : String
  startedAt : Time
  lastId : Int
  dropped : Int
  coveredUntil : Option Time
  lastLossAt : Option Time
  lossNotice : Option Batch
  queue : List Batch
  deriving DecidableEq

inductive LogType
  | consume
  | error
  | other
  deriving DecidableEq, Repr

/-- The fields of `logcollector.Event` that the statistics read. -/
structure Event where
  sourceLogId : Int
  createdAt : Time
  logType : LogType
  userId : Int
  channelId : Int
  modelName : String
  completionTokens : Int
  errorSummary : String
  errorParsed : Bool
  errorCode : String

variable (extractStatusCodes : String → Int × Int)

/-- The error code after `ClassifyError`; `extractStatusCodes` gives the legacy status
and the explicit one. -/
def Event.classifyError (e : Event) : String :=
  if e.errorParsed then e.errorCode
  else
    let codes := extractStatusCodes e.errorSummary
    if codes.2 ≠ 0 then "http:" ++ toString codes.2
    else if codes.1 ≠ 0 then "business:" ++ toString codes.1
    else "unknown"

def Event.code (e : Event) : String :=
  match e.logType with
  | .error => e.classifyError extractStatusCodes
  | .consume => if e.completionTokens = 0 then "zero_output" else ""
  | .other => ""

/-! ### Recording a page -/

/-- The key of a count. -/
structure Key where
  minute : Time
  userId : Int
  channelId : Int
  model : String
  code : String
  deriving DecidableEq

def minute : Int := 60000000000

def Event.key (e : Event) : Key where
  minute := e.createdAt - e.createdAt % minute
  userId := max 0 e.userId
  channelId := max 0 e.channelId
  model := e.modelName
  code := e.code extractStatusCodes

/-- The event is lost: its model has too long a name, or it lies in the future. -/
def Event.unusable (now : Time) (e : Event) : Bool := decide (e.modelName.utf8ByteSize > 200) || decide (now < e.createdAt)

/-- What the loop over the events changes. -/
structure Scan where
  lastId : Int
  dropped : Int
  counts : Tally Key Int

/-- One event; `seen` is the watermark before the page. -/
def scanEvent (seen : Int) (startedAt now : Time) (acc : Scan) (e : Event) : Scan :=
  if e.sourceLogId ≤ seen then acc
  else
    let acc := if acc.lastId < e.sourceLogId then { acc with lastId := e.sourceLogId } else acc
    if e.createdAt < startedAt then acc
    else if e.code extractStatusCodes = "" then acc
    else if e.unusable now then { acc with dropped := acc.dropped + 1 }
    else { acc with counts := acc.counts.add (e.key extractStatusCodes, 1) }

/-- A call of `record`. The random ids of its batches and of a notice and the order of
the map's entries are what the call happens to meet. -/
structure Call where
  events : List Event
  now : Time
  covered : Option Time
  sourceAfterId : Option Int
  ids : Nat → String
  noticeId : String
  order : List Row → List Row
  order_perm : ∀ rows, (order rows).Perm rows

def Key.row (k : Key) (n : Int) : Row := ⟨k.minute, k.userId, k.channelId, k.model, k.code, n⟩

/-- The wire batches of a page: one at least, and no more than `maxRows` rows in each. -/
def slices (rows : List Row) : List (List Row) :=
  (List.range (max 1 ((rows.length + (maxRows - 1)) / maxRows))).map fun i => (rows.drop (maxRows * i)).take maxRows

variable (s : Snapshot)

/-- The batches before the losses of the call are known; the last one carries the coverage. -/
def newBatches (call : Call) (coveredUntil : Option Time) (rows : List (List Row)) : List Batch :=
  rows.mapIdx fun i part =>
    ⟨s.instanceId, call.ids i, s.startedAt, call.now, none, if i + 1 = rows.length then coveredUntil else none, 0, part⟩

/-- Batches leave at the front while there are too many or too many rows. -/
def evict (rows : Nat) (dropped : Int) : List Batch → List Batch × Int
  | b :: c :: rest =>
    if rows > maxPendingRows ∨ (b :: c :: rest).length > maxBatches then
      evict (rows - b.rows.length) (dropped + b.count) (c :: rest)
    else (b :: c :: rest, dropped)
  | queue => (queue, dropped)

/-- The batches of the call that are still in the queue carry its losses. -/
def stamp (k : Nat) (dropped : Int) (lastLossAt : Option Time) (queue : List Batch) : List Batch :=
  queue.take (queue.length - k) ++
    (queue.drop (queue.length - k)).map fun b => { b with dropped := dropped, lastLossAt := lastLossAt }

def setLossNotice (now : Time) (id : String) : Snapshot :=
  { s with lossNotice := some ⟨s.instanceId, id, s.startedAt, now, s.lastLossAt, none, s.dropped, []⟩ }

/-- The main cursor has passed entries that the statistics have not seen. -/
def Call.gap (call : Call) : Bool := call.sourceAfterId.any fun id => decide (s.lastId < id)

def Call.coveredUntil (call : Call) : Option Time :=
  match call.covered with
  | none => s.coveredUntil
  | some covered =>
    if ¬ covered < s.startedAt ∧ ¬ call.now < covered ∧ s.coveredUntil.all (fun until_ => decide (until_ < covered)) = true then
      some covered
    else s.coveredUntil

section Record
variable (extractStatusCodes : String → Int × Int) (s : Snapshot)

variable (call : Call)

def Call.scan : Scan :=
  call.events.foldl (scanEvent extractStatusCodes s.lastId s.startedAt call.now)
    ⟨if call.gap s then call.sourceAfterId.getD s.lastId else s.lastId, s.dropped, .empty⟩

def Call.pending : List Row :=
  call.order ((call.scan extractStatusCodes s).counts.rows.map fun e => e.1.row e.2)

def Call.batches : List Batch :=
  newBatches s call (call.coveredUntil s) (slices (call.pending extractStatusCodes s))

/-- The queue after the evictions, and what has been dropped by then. -/
def Call.evicted : List Batch × Int :=
  let queue := s.queue ++ call.batches extractStatusCodes s
  evict (queue.map fun b => b.rows.length).sum (call.scan extractStatusCodes s).dropped queue

/-- The call sets `LastLossAt`. -/
def Call.lost : Bool :=
  call.gap s || decide ((call.scan extractStatusCodes s).dropped > s.dropped) ||
    decide ((call.evicted extractStatusCodes s).2 > s.dropped)

/-- The snapshot that `record` saves. -/
def record : Snapshot :=
  let kept := call.evicted extractStatusCodes s
  let lastLossAt := if call.lost extractStatusCodes s then some call.now else s.lastLossAt
  let next : Snapshot :=
    { s with
      lastId := (call.scan extractStatusCodes s).lastId
      coveredUntil := call.coveredUntil s
      dropped := kept.2
      lastLossAt := lastLossAt
      queue := stamp (call.batches extractStatusCodes s).length kept.2 lastLossAt kept.1 }
  if next.lastLossAt.isSome ∧ (s.lastLossAt ≠ next.lastLossAt ∨ next.dropped ≠ s.dropped) then
    setLossNotice next call.now call.noticeId
  else next

end Record

/-! ### Opening and activating -/

/-- `Open` of a path that does not exist. -/
def created (instanceId : String) (now : Time) : Snapshot := ⟨false, instanceId, now, 0, 0, none, none, none, []⟩

def activate (latestId : Int) (now : Time) : Snapshot :=
  if s.activated then s else { s with activated := true, startedAt := now, lastId := max 0 latestId }

/-- The checks of `Open` on a saved snapshot. -/
def accepts (instanceId : String) (s : Snapshot) : Bool :=
  decide (s.instanceId = instanceId) && !s.startedAt.isZero && decide (s.queue.length ≤ maxBatches)

/-- What `Open` makes of an accepted snapshot; a new notice has to be saved. -/
def reopened (now : Time) (noticeId : String) : Snapshot :=
  let s := if s.dropped > 0 ∧ s.lastLossAt = none then { s with lastLossAt := some now } else s
  if s.lastLossAt.isSome ∧ s.lossNotice = none then setLossNotice s now noticeId else s

/-- `Open` saves the snapshot that it read only when it sets a notice. -/
def republishes : Bool := (s.lastLossAt.isSome || decide (s.dropped > 0)) && s.lossNotice.isNone

/-! ### The agent -/

/-- A batch on its way, and whether it is the notice. -/
structure Sending where
  batch : Batch
  notice : Bool
  deriving DecidableEq

/-- `disk` is the file of the instance; there is no stream when `Open` failed. `sending` is
the batch that `Flush` has taken. -/
structure World where
  instanceId : String
  disk : Snapshot
  stream : Option Snapshot
  sending : Option Sending

/-- What `Flush` takes next. -/
def Snapshot.takes : Option Sending :=
  match s.lossNotice with
  | some notice => some ⟨notice, true⟩
  | none => s.queue.head?.map fun b => ⟨b, false⟩

/-- What `Flush` saves after a batch was sent, if it is still there. -/
def Snapshot.settle (sent : Sending) : Option Snapshot :=
  if sent.notice then
    match s.lossNotice with
    | some n => if n.id = sent.batch.id then some { s with lossNotice := none } else none
    | none => none
  else
    match s.queue with
    | b :: rest => if b.id = sent.batch.id then some { s with queue := rest } else none
    | [] => none

/-- The outcome of a save or of a read is part of the step; the receiver may have got a
batch whose sending failed. -/
inductive Step
  | record (call : Call) (saved : Bool)
  | take
  | sent (saved : Bool)
  | sendFailed
  | restart (now : Time) (noticeId : String) (readable saved : Bool)

namespace World
variable (extractStatusCodes : String → Int × Int)

/-- A snapshot is saved and becomes the state. -/
def commit (w : World) (s : Snapshot) : World := { w with disk := s, stream := some s }

def step (w : World) : Step → World
  | .record call saved =>
    match w.stream with
    | none => w
    | some s => if s.activated && saved then w.commit (ErrorStats.record extractStatusCodes s call) else w
  | .take =>
    match w.stream, w.sending with
    | some s, none => { w with sending := s.takes }
    | _, _ => w
  | .sent saved =>
    match w.stream, w.sending with
    | some s, some sent =>
      match s.settle sent with
      | some s' => if saved then { w.commit s' with sending := none } else { w with sending := none }
      | none => { w with sending := none }
    | _, _ => w
  | .sendFailed => { w with sending := none }
  | .restart now noticeId readable saved =>
    if !readable || !accepts w.instanceId w.disk then { w with stream := none, sending := none }
    else if republishes w.disk then
      if saved then { w.commit (reopened w.disk now noticeId) with sending := none } else { w with stream := none, sending := none }
    else { w with stream := some (reopened w.disk now noticeId), sending := none }

def run (w : World) : List Step → World
  | [] => w
  | step :: steps => run (w.step extractStatusCodes step) steps

/-- The agent after its first start and the activation of the statistics. -/
def activated (instanceId : String) (opened now : Time) (latestId : Int) : World :=
  let s := activate (created instanceId opened) latestId now
  ⟨instanceId, s, some s, none⟩

end World

end ControlTower.ErrorStats
