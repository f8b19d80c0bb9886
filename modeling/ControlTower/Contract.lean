import ControlTower.Go.Time

/-! The parts of the archive contract that durable states refer to: identifiers,
and the operations and diagnostics a worker attaches to a result. -/
namespace ControlTower.Contract
open Go

def lowerHex (c : Char) : Bool := ('0' ≤ c && c ≤ '9') || ('a' ≤ c && c ≤ 'f')

/-- `IDBytes` succeeds: 32 lowercase hexadecimal digits that are not all zero. -/
def idBytes (v : String) : Bool :=
  v.length == 32 && v.toList.all lowerHex && v != "00000000000000000000000000000000"

/-- `^[a-z][a-z0-9_]{0,127}$` -/
def executionIdentifier (v : String) : Bool :=
  match v.toList with
  | [] => false
  | c :: rest => 'a' ≤ c && c ≤ 'z' && rest.length ≤ 127 &&
      rest.all fun c => ('a' ≤ c && c ≤ 'z') || ('0' ≤ c && c ≤ '9') || c == '_'

/-- `^[A-Z0-9]{5}$` -/
def executionSQLState (v : String) : Bool :=
  v.length == 5 && v.toList.all fun c => ('A' ≤ c && c ≤ 'Z') || ('0' ≤ c && c ≤ '9')

/-- `DateBounds` succeeds. -/
def dateBounds (date : String) : Bool :=
  match parseDate date with
  | some (year, _, _) => 1970 ≤ year
  | none => false

structure Operation where
  phase : String
  code : String
  database : String
  table : String
  date : String
  state : String
  startedAt : Time
  finishedAt : Option Time
deriving DecidableEq

def Operation.validate (o : Operation) : Bool :=
  executionIdentifier o.phase && executionIdentifier o.code &&
    (o.table == "" || executionIdentifier o.table) && !Time.isZero o.startedAt &&
    ["source", "archive", "both", "control"].contains o.database &&
    (o.date == "" || dateBounds o.date) &&
    ["executing", "completed", "failed"].contains o.state &&
    (if o.state == "executing" then o.finishedAt.isNone else o.finishedAt.isSome) &&
    o.finishedAt.all (o.startedAt ≤ ·)

/-- The operation can be written as JSON. -/
def Operation.marshals (o : Operation) : Bool :=
  Time.marshals o.startedAt && o.finishedAt.all Time.marshals

structure Diagnostic where
  code : String
  operation : Option Operation
  mySQLNumber : UInt16
  sqlState : String
  rowID : Int
  rowBytes : UInt64
  occurredAt : Time
  retryAt : Option Time
deriving DecidableEq

def Diagnostic.validate (d : Diagnostic) : Bool :=
  executionIdentifier d.code && !Time.isZero d.occurredAt && 0 ≤ d.rowID &&
    d.operation.all Operation.validate && (d.sqlState == "" || executionSQLState d.sqlState) &&
    d.retryAt.all (d.occurredAt ≤ ·)

def Diagnostic.marshals (d : Diagnostic) : Bool :=
  Time.marshals d.occurredAt && d.retryAt.all Time.marshals && d.operation.all Operation.marshals

end ControlTower.Contract
