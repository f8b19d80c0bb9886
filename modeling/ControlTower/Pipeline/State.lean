import ControlTower.Contract
import ControlTower.Go.Finmap

/-! The archive pipeline's durable state and its transitions.

A date is collected, organized and verified; a verification that succeeds seals
it. Three things bind these steps together: the revision of a date, which moves
whenever a committed row of that date changes; the reservations, at most one a
task, each with a token that is never used again; and the round, which fixes how
far the work may go. Every transition is a method that may refuse: it returns the
state it leaves and, when it refuses, the error. -/
namespace ControlTower.Pipeline
open Go Contract

inductive Task where
  | migration
  | organization
  | verification
  | collection
  /-- Any other text: `Task` is a string type. -/
  | other (name : String)
deriving DecidableEq

inductive Err where
  | conflict
  | notReady
  | stale
deriving DecidableEq

structure Settings where
  retryToken : String := ""
  migration : Bool := false
  organization : Bool := false
  verification : Bool := false
  collection : Bool := false
  collectionFrom : String := ""
  collectionThrough : String := ""
  collectionNewestFirst : Bool := false
deriving DecidableEq

def validDate (date : String) : Bool :=
  (parseDate date).isSome && "1970-01-01" ≤ date && date ≤ "9998-12-31"

def Settings.validate (s : Settings) : Bool :=
  (s.retryToken == "" || idBytes s.retryToken) &&
    if s.collectionFrom == "" && s.collectionThrough == "" then !s.collectionNewestFirst
    else validDate s.collectionFrom && validDate s.collectionThrough &&
      s.collectionFrom ≤ s.collectionThrough

def Settings.enabled (s : Settings) : Task → Bool
  | .migration => s.migration
  | .organization => s.organization
  | .verification => s.verification
  | .collection => s.collection
  | .other _ => false

/-- A fenced reservation. -/
structure Work where
  token : UInt64
  task : Task
  date : String
  revision : UInt64
deriving DecidableEq

structure Result where
  completedAt : Option Time
  diagnostic : Option Diagnostic
  round : UInt64
  revision : UInt64
  code : String
  sealVersion : String
deriving DecidableEq

structure Day where
  revision : UInt64 := 0
  collected : Bool := false
  organizedRevision : UInt64 := 0
  result : Option Result := none
  lastSeal : Option Result := none
deriving DecidableEq

/-- The durable state. `Days` and `Active` are maps that exist and hold no nil
day, which the code checks and the type carries. -/
structure State where
  version : Int
  settings : Settings
  schemaReady : Bool
  migrationDone : Bool
  round : UInt64
  cutoff : String
  frontier : String
  nextToken : UInt64
  days : Finmap fun _ : String => Day
  active : Finmap fun _ : Task => Work
deriving DecidableEq

/-- `New`. -/
def new (settings : Settings) : State :=
  ⟨1, settings, false, false, 0, "", "", 0, ∅, ∅⟩

def maxUint64 : UInt64 := 18446744073709551615

/-- A time zone, read as the date of the day before an instant in that zone:
`now.In(location).AddDate(0, 0, -1).Format("2006-01-02")`. -/
structure Location where
  yesterday : Time → String

/-- `BeginRound`. -/
def State.beginRound (s : State) (now : Time) (location : Option Location) : State × Option Err :=
  match location with
  | none => (s, some .conflict)
  | some location =>
    if now.isZero || s.active != ∅ || s.round == maxUint64 then (s, some .conflict) else
    if !validDate (location.yesterday now) then (s, some .conflict) else
    ({s with round := s.round + 1, cutoff := location.yesterday now}, none)

/-! ### Committed rows -/

/-- The first loop over the observed dates: the frontier and the missing days. -/
def State.observeDate (s : State) (date : String) : State :=
  {s with
    frontier := if s.frontier < date then date else s.frontier
    days := if date ∈ s.days then s.days else s.days.insert date {revision := 1}}

/-- A day whose rows changed: its revision moves and nothing computed from the
old rows counts any longer. -/
def Day.change (d : Day) : Day :=
  {d with revision := d.revision + 1, organizedRevision := 0, result := none}

def State.changeDate (s : State) (change : Σ _ : String, Bool) : State :=
  if change.2 then
    {s with days := s.days.insert change.1 ((s.days.lookup change.1).getD {}).change}
  else s

def State.recollect (s : State) : State :=
  {s with days := s.days.mapVals fun date d => {d with collected := date < s.frontier}}

/-- No observed or changed date is malformed, and no revision would run over. -/
def State.acceptsRows (s : State) (observed : List String) (changed : AList fun _ : String => Bool) :
    Bool :=
  observed.all validDate && changed.entries.all fun c => validDate c.1 &&
    !(c.2 && (s.days.lookup c.1).any (·.revision == maxUint64))

/-- `ObserveCommittedRows`. The changed dates arrive as a map in one of its
iteration orders. -/
def State.observeCommittedRows (s : State) (observed : List String)
    (changed : AList fun _ : String => Bool) : State × Option Err :=
  if !s.acceptsRows observed changed then (s, some .conflict) else
  ((changed.entries.foldl State.changeDate (observed.foldl State.observeDate s)).recollect, none)

/-! ### Reservations -/

/-- The date may still be worked on in this round. -/
def State.offers (s : State) (date : String) : Bool :=
  match s.days.lookup date with
  | none => false
  | some d => !(s.cutoff < date) && d.collected &&
      !d.result.any fun r => r.revision == d.revision && (r.sealVersion != "" || r.round == s.round)

/-- `NextDate`: the first of the dates that remain, in order. -/
def State.nextDate (s : State) : String :=
  WithTop.untopD "" (s.days.keys.filter fun date => s.offers date).min

/-- Organization and verification work on the next date, one of them at a time. -/
def State.reserveDate (s : State) (task : Task) : Except Err (String × UInt64) :=
  if !s.migrationDone || s.round == 0 then .error .notReady else
  if Task.organization ∈ s.active then .error .notReady else
  if Task.verification ∈ s.active then .error .notReady else
  if s.nextDate == "" then .error .notReady else
  match s.days.lookup s.nextDate with
  | none => .error .notReady
  | some d =>
    if task == .organization && d.organizedRevision == d.revision then .error .notReady else
    if task == .verification && d.organizedRevision != d.revision then .error .notReady else
    if task == .verification && decide (Task.collection ∈ s.active) then .error .notReady else
    .ok (s.nextDate, d.revision)

/-- The switch of `Reserve`: the date and revision the work is for. -/
def State.reserveTask (s : State) : Task → Except Err (String × UInt64)
  | .migration => if s.migrationDone then .error .notReady else .ok ("", 0)
  | .collection =>
    if Task.verification ∈ s.active then .error .notReady else
    -- A ready verifier gets the next source turn after a collection batch.
    if s.nextDate != "" && s.migrationDone && s.settings.verification &&
        (s.days.lookup s.nextDate).any (fun d => d.organizedRevision == d.revision) then
      .error .notReady
    else .ok ("", 0)
  | .organization => s.reserveDate .organization
  | .verification => s.reserveDate .verification
  | .other _ => .error .conflict

/-- `Reserve`. -/
def State.reserve (s : State) (task : Task) : State × Except Err Work :=
  if !s.settings.enabled task || !s.schemaReady then (s, .error .notReady) else
  if task ∈ s.active then (s, .error .conflict) else
  if s.nextToken == maxUint64 then (s, .error .conflict) else
  match s.reserveTask task with
  | .error e => (s, .error e)
  | .ok (date, revision) =>
    let w : Work := ⟨s.nextToken + 1, task, date, revision⟩
    ({s with nextToken := s.nextToken + 1, active := s.active.insert task w}, .ok w)

def State.owns (s : State) (work : Work) : Bool :=
  s.active.lookup work.task == some work && work.token != 0

def State.drop (s : State) (task : Task) : State := {s with active := s.active.erase task}

def State.setDay (s : State) (date : String) (d : Day) : State :=
  {s with days := s.days.insert date d}

/-- `Finish`, read at the clock. -/
def State.finish (s : State) (work : Work) (code sealVersion : String) (now : Now) :
    State × Option Err :=
  if !s.owns work || 128 < code.utf8ByteSize || 128 < sealVersion.utf8ByteSize ||
      (code != "" && sealVersion != "") then (s, some .conflict) else
  if work.task != .verification && sealVersion != "" then (s, some .conflict) else
  if work.date != "" then
    match s.days.lookup work.date with
    | none => (s, some .stale)
    | some d =>
      if d.revision != work.revision then (s, some .stale) else
      if code != "" then
        let r : Result := ⟨some now.instant, none, s.round, d.revision, code, ""⟩
        ((s.setDay work.date {d with result := some r}).drop work.task, none)
      else if work.task == .organization then
        ((s.setDay work.date {d with organizedRevision := d.revision}).drop work.task, none)
      else if sealVersion == "" then (s, some .conflict)
      else
        let r : Result := ⟨some now.instant, none, s.round, d.revision, "", sealVersion⟩
        ((s.setDay work.date {d with result := some r, lastSeal := some r}).drop work.task, none)
  else if code != "" then (s, some .conflict)
  else if work.task == .migration then (({s with migrationDone := true} : State).drop work.task, none)
  else (s.drop work.task, none)

/-- `Release`. -/
def State.release (s : State) (work : Work) : State × Option Err :=
  if !s.owns work then (s, some .conflict) else (s.drop work.task, none)

/-- `RecoverAfterFence`. -/
def State.recoverAfterFence (s : State) : State := {s with active := ∅}

/-! ### What a date is -/

inductive DayState where
  | unknown
  | collecting
  | waitingMigration
  | organization
  | verification
  | sealed
  | blocked
  | organized
  | changed
  | collected
deriving DecidableEq

/-- An active work of this task holds the date at its current revision. -/
def State.working (s : State) (task : Task) (date : String) (d : Day) : Bool :=
  (s.active.lookup task).any fun w => w.date == date && w.revision == d.revision

/-- `DayState`. -/
def State.dayState (s : State) (date : String) : DayState :=
  match s.days.lookup date with
  | none => .unknown
  | some d =>
    if !d.collected then .collecting else
    if !s.migrationDone then .waitingMigration else
    if s.working .organization date d then .organization else
    if s.working .verification date d then .verification else
    match d.result.filter (·.revision == d.revision) with
    | some r => if r.sealVersion != "" then .sealed else .blocked
    | none =>
      if d.organizedRevision == d.revision then .organized else
      if d.lastSeal.isSome then .changed else .collected

end ControlTower.Pipeline
