import ControlTower.Logs.TimeIndex

/-! The stream engine: sessions that search log files page by page.

A session freezes the sizes of its files. A page takes turns until its lines, its bytes
or its time are used up: each turn opens the current file, looks for its time index at
the first one, and reads up to 64 KiB of the current range. The engine keeps the
indexes of all sessions. Offsets are natural numbers, but the number of bytes to read
is an integer: the source would panic on a negative one.

The texts of the page are bytes. What a query asks of a text, how a text is redacted
and how a line shows its time are parameters. -/
namespace ControlTower.Logs
open Go Data

structure Source where
  hostDir : String
  kind : String
  logFormat : String
  deriving DecidableEq

/-- `criteria` is what `queryIdentity` writes besides the interval. -/
structure Query where
  interval : Interval
  criteria : Bytes
  deriving DecidableEq

/-- `format` is `parserForSource`, for a kind and a log format. -/
structure Setup where
  loc : String
  digest : Bytes → Bytes
  format : String → String → LineFormat
  matcher : Source → Query → Bytes → Bool
  redact : Source → Bytes → Bytes

/-- The files of the host, by directory and name. -/
abbrev Files := String → String → Option File

inductive Status
  | succeeded
  | failed
  deriving DecidableEq, Repr

structure Result where
  status : Status
  lines : List Bytes
  error : String
  nextCursor : String
  complete : Bool
  truncated : Bool
  scannedBytes : Nat
  filesScanned : Nat
  note : String
  deriving DecidableEq

structure SearchSession where
  source : Source
  query : Query
  files : List FileSnapshot
  /-- The walk through the directory met its limits. -/
  walkCut : Bool
  filePos : Nat
  indexKey : Option IndexKey
  ranges : List TimeBlock
  rangePos : Nat
  build : Option IndexBuild
  readPos : Nat
  parser : Option RecordParser
  pending : List Bytes
  skipped : Bool

namespace SearchSession

/-- A session that has read nothing yet. -/
def fresh (source : Source) (query : Query) (files : List FileSnapshot) (walkCut : Bool) : SearchSession where
  source := source
  query := query
  files := files
  walkCut := walkCut
  filePos := 0
  indexKey := none
  ranges := []
  rangePos := 0
  build := none
  readPos := 0
  parser := none
  pending := []
  skipped := false

def nextFile (s : SearchSession) : SearchSession :=
  { s with
    filePos := s.filePos + 1, indexKey := none, ranges := [], rangePos := 0, build := none, readPos := 0, parser := none }

def format (setup : Setup) (s : SearchSession) : LineFormat := setup.format s.source.kind s.source.logFormat

end SearchSession

def utf8 (s : String) : Bytes := s.toUTF8.toList

/-- `fmt.Sprintf("%s [byte %d] %s", name, offset, text)`. -/
def render (name : String) (offset : Nat) (text : Bytes) : Bytes :=
  utf8 name ++ utf8 " [byte " ++ utf8 (toString offset) ++ utf8 "] " ++ text

/-- `record.oversized || record.stamp.IsZero()`. -/
def LogRecord.unreadable (r : LogRecord) : Bool := r.oversized || r.stamp.isZero

variable (setup : Setup)

/-- The record is one that the query asks for. -/
def wanted (source : Source) (query : Query) (r : LogRecord) : Bool :=
  !r.unreadable && !decide (r.stamp < query.interval.fromTime) && decide (r.stamp < query.interval.toTime) &&
    setup.matcher source query ([newline].intercalate (r.lines.map LogLine.text))

/-- The lines of a record that a query shows. -/
def found (source : Source) (query : Query) (name : String) (r : LogRecord) : List Bytes :=
  if wanted setup source query r then r.lines.map fun l => render name l.offset (setup.redact source l.text) else []

/-- The function `emit` of a page. -/
def emit (name : String) (s : SearchSession) (r : LogRecord) : SearchSession :=
  { s with
    build := s.build.map fun b => b.observe r
    skipped := s.skipped || r.unreadable
    pending := s.pending ++ found setup s.source s.query name r }

def emitAll (name : String) (s : SearchSession) (rs : List LogRecord) : SearchSession :=
  rs.foldl (emit setup name) s

def indexKey (s : SearchSession) (snap : FileSnapshot) : IndexKey :=
  ⟨s.source.hostDir, snap.name, s.source.kind, s.source.logFormat, setup.loc⟩

def prepareTimeIndex (indexes : List FileTimeIndex) (s : SearchSession) (snap : FileSnapshot) (f : File) :
    List FileTimeIndex × SearchSession :=
  let key := indexKey setup s snap
  let found := cachedIndex setup.digest indexes key f
  let set := prepared s.query.interval snap.size found.1
  (found.2, { s with indexKey := some key, ranges := set.1, build := set.2 })

/-- The last range of a file was read. -/
def finishFile (indexes : List FileTimeIndex) (s : SearchSession) (key : IndexKey) (snap : FileSnapshot) :
    List FileTimeIndex × SearchSession :=
  (finishedIndex indexes key snap s.build, s.nextFile)

/-- How a turn of the page's loop ended. -/
inductive Turn
  | panicked
  | failed (error : String)
  | moved (indexes : List FileTimeIndex) (s : SearchSession) (read : Nat)

/-- The bytes that a turn asks for. -/
def readCount (span : TimeBlock) (readPos room : Nat) : Int := min (min 65536 ((span.stop : Int) - readPos)) room

/-- Where a turn reads: at the start of the range, or where the last turn stopped. -/
def SearchSession.position (s : SearchSession) (span : TimeBlock) : Nat := if s.parser.isNone then span.start else s.readPos

/-- The session after it read `data` from a range. -/
def afterRead (s : SearchSession) (name : String) (span : TimeBlock) (data : Bytes) : SearchSession :=
  let p := s.parser.getD (.start span.start)
  let readPos := s.position span + data.length
  let final := decide (readPos = span.stop)
  let fed := p.feed (s.format setup) data final
  let s := emitAll setup name s fed.2
  { s with
    readPos := readPos
    parser := if final then none else some fed.1
    rangePos := if final then s.rangePos + 1 else s.rangePos }

/-- A turn that reads from a range; `room` is what the page may still read. -/
def readRange (indexes : List FileTimeIndex) (s : SearchSession) (key : IndexKey) (snap : FileSnapshot)
    (f : File) (span : TimeBlock) (room : Nat) : Turn :=
  let count := readCount span (s.position span) room
  if count < 0 then .panicked
  else
    let data := (f.content.drop (s.position span)).take count.toNat
    if data.length < count.toNat then .failed "日志读取失败，请重新查询"
    else
      let s := afterRead setup s snap.name span data
      if s.rangePos = s.ranges.length then
        let done := finishFile indexes s key snap
        .moved done.1 done.2 data.length
      else .moved indexes s data.length

/-- A turn on an open file with its ranges set. -/
def readOn (indexes : List FileTimeIndex) (s : SearchSession) (key : IndexKey) (snap : FileSnapshot)
    (f : File) (room : Nat) : Turn :=
  match s.ranges[s.rangePos]? with
  | none =>
    let done := finishFile indexes s key snap
    .moved done.1 done.2 0
  | some span => readRange setup indexes s key snap f span room

/-- `snapshotMatchesSafe` failed, or the file could not be opened. -/
def rotated : String := "日志文件已轮转、截断或不可读，请重新查询"

/-- One turn of the page's loop on the current file. -/
def turn (files : Files) (indexes : List FileTimeIndex) (s : SearchSession) (room : Nat) : Turn :=
  match s.files[s.filePos]? with
  | none => .failed rotated
  | some snap =>
    match files s.source.hostDir snap.name with
    | none => .failed rotated
    | some f =>
      if snapshotMatches setup.digest f snap then
        match s.indexKey with
        | some key => readOn setup indexes s key snap f room
        | none =>
          let ready := prepareTimeIndex setup indexes s snap f
          readOn setup ready.1 ready.2 (indexKey setup s snap) snap f room
      else .failed rotated

/-! ### Pages -/

/-- `pageBytes` of the engine, and the line and byte limits of a page. -/
structure Limits where
  pageBytes : Nat
  maxLines : Nat
  maxResultBytes : Nat

def maxLogFiles : Nat := 256

/-- The page so far; `seen` are the files it has opened. -/
structure Page where
  lines : List Bytes
  total : Nat
  scannedBytes : Nat
  seen : List Nat

def Page.empty : Page := ⟨[], 0, 0, []⟩

/-- Pending lines go to the page. The last component says that the page is full. -/
def drain (limits : Limits) (page : Page) (skipped : Bool) : List Bytes → Page × Bool × List Bytes × Bool
  | [] => (page, skipped, [], false)
  | l :: rest =>
    if l.length > limits.maxResultBytes then drain limits page true rest
    else if page.lines.length ≥ limits.maxLines ∨ page.total + l.length > limits.maxResultBytes then
      (page, skipped, l :: rest, true)
    else drain limits { page with lines := page.lines ++ [l], total := page.total + l.length } skipped rest

/-- Pending lines of a session go to the page. -/
def deliver (limits : Limits) (page : Page) (s : SearchSession) : Page × SearchSession × Bool :=
  let d := drain limits page s.skipped s.pending
  (d.1, { s with skipped := d.2.1, pending := d.2.2.1 }, d.2.2.2)

inductive PageEnd
  | panicked
  | failed (error : String)
  | returned
  deriving DecidableEq, Repr

structure PageState where
  indexes : List FileTimeIndex
  session : SearchSession
  page : Page

/-- The loop of `page`. The context ends after `deadline` turns at the latest: it has a
time limit of its own. -/
def pageLoop (setup : Setup) (limits : Limits) (files : Files) : Nat → PageState → PageState × PageEnd
  | deadline, st =>
    let d := deliver limits st.page st.session
    let st := { st with page := d.1, session := d.2.1 }
    if d.2.2 then (st, .returned)
    else if st.session.files.length ≤ st.session.filePos then (st, .returned)
    else match deadline with
      | 0 => (st, .returned)
      | deadline + 1 =>
        if limits.pageBytes ≤ st.page.scannedBytes then (st, .returned)
        else if st.session.filePos ∉ st.page.seen ∧ maxLogFiles ≤ st.page.seen.length then (st, .returned)
        else
          let seen := if st.session.filePos ∈ st.page.seen then st.page.seen else st.session.filePos :: st.page.seen
          match turn setup files st.indexes st.session (limits.pageBytes - st.page.scannedBytes) with
          | .panicked => (st, .panicked)
          | .failed error => ({ st with page := { st.page with seen := seen } }, .failed error)
          | .moved indexes s read =>
            pageLoop setup limits files deadline
              ⟨indexes, s, { st.page with seen := seen, scannedBytes := st.page.scannedBytes + read }⟩

end ControlTower.Logs
