import ControlTower.Logs.Engine

/-! Queries and their continuations.

A query without a cursor freezes the files and opens a session; its pages are fetched
with the cursor of the page before. The engine keeps at most 16 sessions, each for ten
minutes after its last page, and remembers the last page of a session, so that a page
whose answer was lost can be asked for again. Cursors are random; the walk through the
directory is given by the names it found. -/
namespace ControlTower.Logs
open Go Data

structure Session extends SearchSession where
  current : String
  previous : String
  lastResult : Result
  expires : Time

structure StreamEngine where
  indexes : List FileTimeIndex
  sessions : List Session

def StreamEngine.new : StreamEngine := ⟨[], []⟩

def continuationTTL : Int := 600000000000

def maxSessions : Nat := 16

def recentLogFiles : Nat := 2

/-- What a call meets: the limits, after how many turns its context ends, the random
cursor, the clock, and what the walk through the directory finds. -/
structure Call where
  limits : Limits
  deadline : Nat
  token : String
  now : Time
  names : List String
  walkCut : Bool

/-- `sort.Slice`: the latest change first, then by name. -/
def newer (a b : String × File) : Bool :=
  if a.2.modTime = b.2.modTime then decide (a.1 ≤ b.1) else decide (b.2.modTime < a.2.modTime)

variable (setup : Setup)

/-- `snapshotOf` is what `snapshot` freezes of an open file. -/
def snapshotOf (f : File) (name : String) : Option FileSnapshot :=
  (snapshotSignature setup.digest f f.content.length).map fun signature =>
    ⟨name, f.inode, f.content.length, f.modTime, signature⟩

variable (files : Files)

/-- The files that the walk found. -/
def listing (dir : String) (names : List String) : Option (List (String × File)) :=
  names.mapM fun name => (files dir name).map fun f => (name, f)

/-- The two that changed last. -/
def recent (found : List (String × File)) : List (String × File) := (found.mergeSort newer).take recentLogFiles

def snapshot (dir : String) (names : List String) : Option (List FileSnapshot) := do
  let found ← listing files dir names
  (recent found).mapM fun e => snapshotOf setup e.2 e.1

def failed (error : String) : Result := ⟨.failed, [], error, "", false, false, 0, 0, ""⟩

/-- What `page` returns. -/
def pageResult (page : Page) : PageEnd → Result
  | .failed error => ⟨.failed, page.lines, error, "", false, false, page.scannedBytes, page.seen.length, ""⟩
  | _ => ⟨.succeeded, page.lines, "", "", false, false, page.scannedBytes, page.seen.length, ""⟩

/-- There is more to come after this page. -/
def SearchSession.unfinished (s : SearchSession) : Bool := decide (s.filePos < s.files.length) || !s.pending.isEmpty

/-- What `QuerySource` adds to the result of a page. -/
def conclude (s : SearchSession) (token : String) (r : Result) : Result :=
  let r :=
    if r.status = .succeeded ∧ s.unfinished = true then
      { r with nextCursor := token, note := "本批尚未查完，Agent 将从当前进度自动处理下一批。" }
    else if r.status = .succeeded then
      { r with complete := true, note := if s.files.isEmpty then "日志目录中没有可查询的日志文件" else "" }
    else r
  let note := r.note ++ (if s.skipped then " 部分记录时间无法识别或超过单条大小限制，已跳过，结果可能不完整。" else "")
  { r with
    truncated := s.walkCut || s.skipped
    note := note ++ (if s.walkCut then " 目录遍历达到保护限制，未覆盖全部目录。" else "") }

/-- The next page of session `i`; `none` is a panic. -/
def answer (call : Call) (indexes : List FileTimeIndex) (sessions : List Session) (i : Nat)
    (s : Session) (cursor : String) : Option (StreamEngine × Result) :=
  match pageLoop setup call.limits files call.deadline ⟨indexes, s.toSearchSession, .empty⟩ with
  | (_, .panicked) => none
  | (st, ended) =>
    let result := conclude st.session call.token (pageResult st.page ended)
    some (⟨st.indexes, sessions.set i
      { s with toSearchSession := st.session, previous := cursor, current := result.nextCursor, lastResult := result }⟩, result)

/-- A new session takes the place of a finished one when there are too many. -/
def makeRoom (sessions : List Session) : List Session :=
  if sessions.length ≥ maxSessions then sessions.eraseP fun s => s.current = "" else sessions

def querySource (call : Call) (e : StreamEngine) (source : Source) (query : Query)
    (cursor : String) : Option (StreamEngine × Result) :=
  let live := e.sessions.filter fun s => ¬ s.expires < call.now
  let expires := call.now + continuationTTL
  if cursor ≠ "" then
    match live.findIdx? fun s => cursor = s.current ∨ cursor = s.previous with
    | none => some (⟨e.indexes, live⟩, failed "查询进度已过期或读取服务已重启，请重新查询")
    | some i =>
      match live[i]? with
      | none => none
      | some s =>
        if s.source.hostDir ≠ source.hostDir ∨ s.query ≠ query then
          some (⟨e.indexes, live⟩, failed "继续查询的条件或来源不一致，请重新查询")
        else if cursor = s.previous then some (⟨e.indexes, live.set i { s with expires := expires }⟩, s.lastResult)
        else answer setup files call e.indexes live i { s with expires := expires } cursor
  else
    let live := makeRoom live
    if live.length ≥ maxSessions then some (⟨e.indexes, live⟩, failed "进行中的查询过多，请稍后重试（进度保留 10 分钟）")
    else match snapshot setup files source.hostDir call.names with
      | none => some (⟨e.indexes, live⟩, failed "无法建立日志文件快照，请检查目录读取权限")
      | some snaps =>
        let s : Session := ⟨.fresh source query snaps call.walkCut, "", "", failed "", expires⟩
        answer setup files call e.indexes (live ++ [s]) live.length s cursor

end ControlTower.Logs
