import ControlTower.Go.Time
import ControlTower.Go.Rational
import Mathlib.Data.List.Sort

/-! Weekly plans for switching a channel on and off.

A plan lists days of the week and windows of the day in Beijing time. `position` says
whether the channel should be on at an instant, when it last had to be switched and when
it has to be switched next. Windows may run past midnight and meet or overlap: they are
merged over the whole week first, so that no boundary is left within them. -/
namespace ControlTower.Schedule
open Go

def maxWindows : Nat := 8

def weekMinutes : Int := 10080

structure Window where
  start : String
  stop : String
  deriving DecidableEq

structure Config where
  enabled : Bool
  days : List Int
  windows : List Window
  revision : Int
  alignNow : Bool
  expectedUpdatedAt : Option Time
  deriving DecidableEq

def Config.sameTiming (c other : Config) : Bool :=
  decide (c.enabled = other.enabled) && decide (c.days = other.days) && decide (c.windows = other.windows)

/-- `Minute`: the minute of the day of a text `HH:MM`. -/
def minuteOf (value : String) : Except String Int :=
  if value.utf8ByteSize ≠ 5 ∨ value.toUTF8.toList[2]? ≠ some 58 then .error "时间必须为 HH:MM"
  else match value.toList with
    | [h₁, h₂, _, m₁, m₂] =>
      match digits [h₁, h₂], digits [m₁, m₂] with
      | some h, some m => if h ≤ 23 ∧ m ≤ 59 then .ok (h * 60 + m) else .error "时间必须为有效的 HH:MM"
      | _, _ => .error "时间必须为有效的 HH:MM"
    | _ => .error "时间必须为有效的 HH:MM"

def Window.normalize (w : Window) : Except String Window := do
  let w : Window := ⟨trimSpace w.start, trimSpace w.stop⟩
  let start ← minuteOf w.start
  let stop ← minuteOf w.stop
  if start = stop then .error "开始和结束时间不能相同" else .ok w

def Config.normalize (c : Config) : Except String Config :=
  if c.revision < 0 ∨ c.days.length < 1 ∨ c.days.length > 7 ∨ c.windows.length < 1 ∨ c.windows.length > maxWindows then
    .error "请选择星期并设置 1–8 个时间窗"
  else if ¬ (∀ day ∈ c.days, 1 ≤ day ∧ day ≤ 7) ∨ ¬ c.days.Nodup then .error "星期必须为不重复的 1–7"
  else do
    let windows ← c.windows.mapM Window.normalize
    return { c with days := c.days.insertionSort (· ≤ ·), windows := windows }

/-! ### The week -/

structure Interval where
  start : Int
  stop : Int
  deriving DecidableEq

/-- The minutes of the week that a window covers on a day; what runs past the end of the
week lies at its beginning. -/
def segments (day : Int) (w : Window) : List Interval :=
  let start := (minuteOf w.start).toOption.getD 0
  let stop := (minuteOf w.stop).toOption.getD 0
  let stop := if stop < start then stop + 1440 else stop
  let start := start + (day - 1) * 1440
  let stop := stop + (day - 1) * 1440
  if stop > weekMinutes then [⟨0, stop - weekMinutes⟩, ⟨start, weekMinutes⟩] else [⟨start, stop⟩]

def merge (merged : List Interval) (v : Interval) : List Interval :=
  match merged.getLast? with
  | none => [v]
  | some last =>
    if v.start > last.stop then merged ++ [v]
    else if v.stop > last.stop then merged.dropLast ++ [{ last with stop := v.stop }]
    else merged

def Config.weekIntervals (c : Config) : List Interval :=
  ((c.days.flatMap fun day => c.windows.flatMap (segments day)).insertionSort fun a b => a.start ≤ b.start).foldl merge []

structure Position where
  allowed : Bool
  boundary : Time
  nextAt : Time
  nextStatus : Int
  deriving DecidableEq

def minuteLength : Int := 60000000000

def dayLength : Int := 86400000000000

/-- Beijing time is eight hours ahead. -/
def beijing : Int := 28800000000000

/-- Monday, 00:00 in Beijing; the first day of Unix time was a Thursday. -/
def weekStart (now : Time) : Time :=
  let today := (now + beijing) / dayLength
  (today - (today + 3) % 7) * dayLength - beijing

/-- An assignment to the map of boundaries. -/
def assign (boundaries : List (Int × Int)) (b : Int × Int) : List (Int × Int) := boundaries.filter (fun e => e.1 ≠ b.1) ++ [b]

/-- The minutes of the week at which the status changes, and the status from then on. -/
def boundaries (merged : List Interval) : List (Int × Int) :=
  let all := (merged.flatMap fun v => [(v.start, 1), (v.stop % weekMinutes, 2)]).foldl assign []
  if merged.head?.any (fun v => v.start = 0) && merged.getLast?.any (fun v => v.stop = weekMinutes) then
    all.filter fun e => e.1 ≠ 0
  else all

/-- One boundary of this week, the last or the next. -/
def Position.pass (now : Time) (p : Position) (instant : Time × Int) : Position :=
  let p := if ¬ now < instant.1 ∧ p.boundary < instant.1 then { p with boundary := instant.1 } else p
  if now < instant.1 ∧ (p.nextAt.isZero ∨ instant.1 < p.nextAt) then { p with nextAt := instant.1, nextStatus := instant.2 } else p

def Config.position (c : Config) (now : Time) : Position :=
  let merged := c.weekIntervals
  let week := weekStart now
  let minute := (now - week) / minuteLength
  let allowed := merged.any fun v => decide (v.start ≤ minute ∧ minute < v.stop)
  let instants := (boundaries merged).flatMap fun b =>
    [-1, 0, 1].map fun offset => (week + (b.1 + offset * weekMinutes) * minuteLength, b.2)
  instants.foldl (Position.pass now) ⟨allowed, Time.zero, Time.zero, 0⟩

/-- The status of the remote channel that a plan asks for: 1 is on, 2 is off. -/
def Position.status (p : Position) : Int := if p.allowed then 1 else 2

/-- The windows that `Preview` shows: one that ends with the week goes on in the one that
begins with it. -/
def joinWeekEnd (merged : List Interval) : List Interval :=
  match merged.head?, merged.getLast? with
  | some first, some last =>
    if merged.length > 1 ∧ first.start = 0 ∧ last.stop = weekMinutes then merged.tail.dropLast ++ [{ last with stop := last.stop + first.stop }]
    else merged
  | _, _ => merged

structure Preview where
  allowed : Bool
  nextAt : Option Time
  nextStatus : Int
  windows : List Interval
  deriving DecidableEq

def Config.preview (c : Config) (now : Time) : Preview :=
  let p := c.position now
  ⟨p.allowed, if p.nextAt.isZero then none else some p.nextAt, p.nextStatus, joinWeekEnd c.weekIntervals⟩

/-- Mondays to Wednesdays from 22:00 to 06:00, on Tuesday, 5 March 2024 at 23:30 in Beijing. -/
example : (Config.position ⟨true, [1, 2, 3], [⟨"22:00", "06:00"⟩], 1, false, none⟩ 1709652600000000000) =
    ⟨true, 1709647200000000000, 1709676000000000000, 2⟩ := by decide +kernel

end ControlTower.Schedule
