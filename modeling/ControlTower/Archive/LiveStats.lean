import Mathlib.Data.Prod.Lex
import Mathlib.Algebra.Order.Ring.Int
import ControlTower.Data.Table

/-! The live statistics of one date.

The archive keeps the rows of a month in one table. For a date it also keeps sums
of what its rows amount to, under a version and with a cursor that says which rows
are in them: those that the build has passed, and those that lie beyond the bound
the build was given when it began. A raw write adds what it changes to the sums
where the cursor covers it; the build adds a page at a time; a row too large for a
page is streamed over several turns and added at its end; and where a change cannot
be followed the date is given a new version and built again. -/
namespace ControlTower.Archive
open Data

/-- A row of the archive. `size` is the sum of the octet lengths of its columns,
`payload` the bytes of its values as the driver returns them. -/
structure Record (C : Type) where
  id : Int
  created : Int
  size : Nat
  payload : Nat
  content : C
deriving DecidableEq

abbrev Position := Int ×ₗ Int

/-- The order of the scans: `ORDER BY created_at, id`. -/
def Record.position {C : Type} (r : Record C) : Position := toLex (r.created, r.id)

/-- `dateBounds`. -/
structure Day where
  lower : Int
  upper : Int

structure LiveCursor where
  version : Nat
  created : Int
  id : Int
  upperCreated : Int
  upperID : Int
  ready : Bool
deriving DecidableEq

/-- `LargeLive`: the row that is streamed, as it was when its transfer began. The turns
read its columns from the table, piece by piece; that the table has it to the end is
the field `waiting` of `Sound`. -/
structure LargeRecord (C : Type) where
  record : Record C
  version : Nat
deriving DecidableEq

/-- Amounts by group and name, as one table writes them. -/
abbrev Entries (K : Type) := List (K × Int)

variable {C K : Type}

def Day.has (day : Day) (r : Record C) : Bool := day.lower ≤ r.created && r.created < day.upper

/-- `covers`. -/
def LiveCursor.covers (p : LiveCursor) (r : Record C) : Bool :=
  if p.upperCreated < 0 then false else
  if p.ready then true else
  r.created < p.created || (r.created == p.created && r.id ≤ p.id) ||
    p.upperCreated < r.created || (r.created == p.upperCreated && p.upperID < r.id)

/-- The condition of the build's query. -/
def LiveCursor.wants (p : LiveCursor) (day : Day) (r : Record C) : Bool :=
  day.has r && (p.created < r.created || (r.created == p.created && p.id < r.id)) &&
    (r.created < p.upperCreated || (r.created == p.upperCreated && r.id ≤ p.upperID))

/-- The state that concerns one date: the month's table, the date's row of
`log_archive_live_stats`, the sums of every version, and the transfer in progress if
it is of this date. `id()` draws an id that was never drawn: the next number. -/
structure State (C K : Type) where
  table : Table (Record.id (C := C))
  live : Option LiveCursor
  sums : Nat → K → Int
  largeLive : Option (LargeRecord C)
  nextVersion : Nat

/-! ### Pages -/

def maxPageBytes : Nat := 8 * 1024 * 1024

def maxRowBytes : Nat := 64 * 1024 * 1024

inductive Preflight (C : Type) where
  | page (count : Nat) (limited : Bool)
  | candidate (r : Record C)

/-- The loop over the lengths in `readArchivePage`. -/
def preflight : List (Record C) → Nat → Nat → Preflight C
  | [], count, _ => .page count false
  | r :: rest, count, total =>
    if maxPageBytes < r.size then if count = 0 then .candidate r else .page count true
    else if maxPageBytes < total + r.size then .page count true
    else preflight rest (count + 1) (total + r.size)

/-- `readPageBudget`, from `total` bytes on; `first` while it has read no row. -/
def readPageBudget (budget : Nat) : List (Record C) → Bool → Nat → Option (List (Record C) × Bool)
  | [], _, _ => some ([], false)
  | r :: rest, first, total =>
    if maxRowBytes < r.payload then if first then none else some ([], true)
    else if !first && budget < total + r.payload then some ([], true)
    else (readPageBudget budget rest false (total + r.payload)).map fun page => (r :: page.1, page.2)

inductive Page (C : Type) where
  | rows (rows : List (Record C)) (limited : Bool)
  | candidate (r : Record C)
  | failed

/-- `readArchivePage` over the rows of its query, without the limit. -/
def readArchivePage (rows : List (Record C)) (batch : Nat) : Page C :=
  match preflight (rows.take batch) 0 0 with
  | .candidate r => .candidate r
  | .page 0 _ => .rows [] false
  | .page count limited =>
    match readPageBudget maxPageBytes (rows.take count) true 0 with
    | none => .failed
    | some page => .rows page.1 (limited || page.2)

/-! ### Sums -/

section Sums
variable [DecidableEq K] (parseAggregate : Record C → Option (Entries K))

/-- What entries add to each amount. -/
def Entries.sum (es : Entries K) (k : K) : Int := ((es.filter fun e => e.1 == k).map Prod.snd).sum

/-- `delta`, over rows with their signs. -/
def delta : List (Int × Record C) → Option (Entries K)
  | [] => some []
  | (sign, r) :: rest => do
    let es ← parseAggregate r
    let later ← delta rest
    pure (es.map (fun e => (e.1, sign * e.2)) ++ later)

variable (s : State C K)

/-- `writeAggregateBatch`: no amount may fall below zero. -/
def State.writeAggregateBatch (version : Nat) (es : Entries K) : Option (State C K) :=
  let sums := Function.update s.sums version (s.sums version + es.sum)
  if es.all fun e => 0 ≤ sums version e.1 then some {s with sums := sums} else none

/-! ### Raw writes -/

/-- The cursor of a new version. -/
def LiveCursor.start (version : Nat) : LiveCursor := ⟨version, 0, 0, -1, 0, false⟩

/-- `invalidateLive`. -/
def State.invalidateLive : State C K :=
  match s.live with
  | none => s
  | some _ => {s with live := some (.start s.nextVersion), nextVersion := s.nextVersion + 1}

structure RawChange (C : Type) where
  before : Option (Record C)
  after : Record C

/-- The row is stored, and a transfer of the row that it replaces is dropped. -/
def State.store (r : Record C) : State C K :=
  {s with
    table := s.table.put r
    largeLive := s.largeLive.filter fun l => l.record.id != r.id}

/-- `writeRaw`. A row too large to be read back is not followed: the date it is
written to is invalidated. -/
def State.writeRaw [DecidableEq C] (day : Day) (s : State C K) (r : Record C) :
    State C K × List (RawChange C) :=
  match s.table.find r.id with
  | none => (s.store r, [⟨none, r⟩])
  | some old =>
    if old = r then (s, [])
    else if maxPageBytes < old.size then
      ((if day.has r then s.invalidateLive else s).store r, [⟨none, r⟩])
    else (s.store r, [⟨some old, r⟩])

/-- The rows of one transaction, with the changes it collects. -/
def State.writeRows [DecidableEq C] (day : Day) (s : State C K) :
    List (Record C) → State C K × List (RawChange C)
  | [] => (s, [])
  | r :: rest =>
    let first := s.writeRaw day r
    let later := first.1.writeRows day rest
    (later.1, first.2 ++ later.2)

/-- A change's share of the date: the row that leaves it and the row that enters it. -/
def RawChange.signed (day : Day) (c : RawChange C) : List (Int × Record C) :=
  ((c.before.filter day.has).map fun r => (-1, r)).toList ++
    if day.has c.after then [(1, c.after)] else []

/-- `flushLive`. `fails` is an error of a statement or of another date; after an error
every date of the changes is invalidated. -/
def State.flushLive (day : Day) (s : State C K) (changes : List (RawChange C)) (fails : Bool) :
    State C K :=
  match s.live, changes.flatMap (RawChange.signed day) with
  | none, _ => s
  | some _, [] => s
  | some p, signed =>
    let applied := if fails then none else
      (delta parseAggregate (signed.filter fun c => p.covers c.2)).bind
        (s.writeAggregateBatch p.version)
    applied.getD s.invalidateLive

/-! ### The build -/

/-- The row of `log_archive_live_stats` is inserted where it is missing. -/
def State.ensureLive : State C K :=
  match s.live with
  | some _ => s
  | none => {s with live := some (.start s.nextVersion), nextVersion := s.nextVersion + 1}

/-- The bound of the build, taken from the last row of the date. -/
def LiveCursor.bounded (p : LiveCursor) (day : Day) (table : Table (Record.id (C := C))) :
    LiveCursor :=
  if p.upperCreated < 0 then
    match (table.scan Record.position day.has).getLast? with
    | none => {p with upperCreated := 0, upperID := 0}
    | some r => {p with upperCreated := r.created, upperID := r.id}
  else p

/-- The cursor after a page. -/
def LiveCursor.advance (p : LiveCursor) (rows : List (Record C)) (limited : Bool) (batch : Nat) :
    LiveCursor :=
  {p with
    created := (rows.getLast?.map Record.created).getD p.created
    id := (rows.getLast?.map Record.id).getD p.id
    ready := !limited && rows.length < batch}

/-- The transaction of `buildLive` from the read of its page on and, at a row too large
for a page, `startLarge`; `start` says that no transfer of another date is in progress. -/
def State.addPage (day : Day) (s : State C K) (p : LiveCursor) (batch : Nat) (start : Bool) :
    State C K :=
  match readArchivePage (s.table.scan Record.position (p.wants day)) batch with
  | .failed => s
  | .candidate r =>
    {s with
      live := some p
      largeLive := if start && s.largeLive.isNone then some ⟨r, p.version⟩
        else s.largeLive}
  | .rows rows limited =>
    match (delta parseAggregate (rows.map fun r => (1, r))).bind (s.writeAggregateBatch p.version) with
    | none => s
    | some added => {added with live := some (p.advance rows limited batch)}

/-- `buildLive`, for a date that `liveStep` selects: one that is not ready. -/
def State.buildLive (day : Day) (s : State C K) (batch : Nat) (start : Bool) : State C K :=
  match s.ensureLive.live with
  | none => s.ensureLive
  | some cursor =>
    if cursor.ready then s.ensureLive
    else s.ensureLive.addPage parseAggregate day (cursor.bounded day s.table) batch start

/-- `processLarge` at the end of a transfer and `finishLarge`, which parses the streamed
columns. A transfer of an older version is dropped; after an error it is tried again. -/
def State.finishLarge : State C K :=
  match s.live, s.largeLive with
  | some p, some l =>
    if l.version ≠ p.version then {s with largeLive := none} else
    match (parseAggregate l.record).bind (s.writeAggregateBatch p.version) with
    | none => s
    | some s => {s with
        live := some {p with created := l.record.created, id := l.record.id}, largeLive := none}
  | _, _ => s

/-! ### Runs -/

inductive Action (C : Type) where
  /-- The rows of a raw transaction that go to this month, then `flushLive`. -/
  | write (rows : List (Record C)) (fails : Bool)
  /-- `finishLarge` of a collected row: it is stored, and its date is invalidated. -/
  | publish (r : Record C)
  | invalidate
  | build (batch : Nat) (start : Bool)
  | finish
  /-- A transfer is given up because its data is refused. -/
  | abandon

/-- `publishLarge` and what follows it in its transaction. A row that is already stored
as it is changes nothing. -/
def State.publish [DecidableEq C] (day : Day) (s : State C K) (r : Record C) : State C K :=
  if s.table.find r.id = some r then s else
  let s := {s with table := s.table.put r}
  if day.has r then s.invalidateLive else s

def State.step [DecidableEq C] (day : Day) (s : State C K) : Action C → State C K
  | .write rows fails =>
    let written := s.writeRows day rows
    written.1.flushLive parseAggregate day written.2 fails
  | .publish r => s.publish day r
  | .invalidate => s.invalidateLive
  | .build batch start => s.buildLive parseAggregate day batch start
  | .finish => s.finishLarge parseAggregate
  | .abandon => {s with largeLive := none}

def State.run [DecidableEq C] (day : Day) (s : State C K) : List (Action C) → State C K
  | [] => s
  | a :: rest => (s.step parseAggregate day a).run day rest

end Sums

end ControlTower.Archive
