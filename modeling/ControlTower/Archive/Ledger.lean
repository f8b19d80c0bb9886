import Mathlib.Data.List.Dedup
import ControlTower.Archive.LiveExact

/-! The archive's ledger of days, and the writes that touch it.

The rows of a month are in one table. For every date there is a row with a revision: a
transaction that inserts or corrects rows of the date raises it and takes the date back
to `pending`. A date that is sealed has the sums of a version, and the number of rows
that were summed. -/
namespace ControlTower.Archive
open Data

/-! ### Dates -/

/-- `day`: the date in Beijing, counted from 1970-01-01. -/
def day (t : Int) : Int := (t + 28800) / 86400

/-- `table`: the number `YYYYMM` in the name of a month's table. -/
def table (date : Int) : Int :=
  -- Years are counted from March, eras of 400 years from 0000-03-01.
  let days := date + 719468
  let era := days / 146097
  let dayOfEra := days % 146097
  let yearOfEra := (dayOfEra - dayOfEra / 1460 + dayOfEra / 36524 - dayOfEra / 146096) / 365
  let dayOfYear := dayOfEra - (365 * yearOfEra + yearOfEra / 4 - yearOfEra / 100)
  let march := (5 * dayOfYear + 2) / 153
  let month := if march < 10 then march + 3 else march - 9
  let year := yearOfEra + era * 400 + if month ≤ 2 then 1 else 0
  year * 100 + month

example : table (day 1709164799) = 202402 ∧ table (day 1709222399) = 202402 ∧ table (day 1709222400) = 202403 := by decide

variable {C K H : Type}

/-! ### The ledger -/

inductive DayState
  | pending
  | collecting
  | processing
  | sealed
  | failed
  deriving DecidableEq

/-- The code of a day's error: `source_history_retention_unconfirmed`,
`source_archive_content_mismatch`, or what a row was refused for. -/
inductive Reason
  | retentionUnconfirmed
  | contentMismatch
  | refused
  deriving DecidableEq

/-- A row of `log_archive_days`. -/
structure DayRow where
  date : Int
  revision : Nat
  state : DayState
  version : Option Nat
  rawRows : Option Nat
  error : Option Reason
  deriving DecidableEq

inductive Pass
  | verifySource
  | verifyArchive
  | summarize
  | seal
  deriving DecidableEq

/-- The saved `history`. -/
structure History (H : Type) where
  date : Int
  step : Pass
  afterCreated : Int
  afterID : Int
  revision : Nat
  version : Nat
  sourceHash : H
  targetHash : H
  sourceRows : Nat
  targetRows : Nat

/-- A row of `log_archive_day_versions`. -/
structure Version (H : Type) where
  version : Nat
  date : Int
  revision : Nat
  rows : Nat
  hash : H

/-- The archive database: the tables of the months, the days, what was sealed, the sums of
every version, and of the saved state what concerns the history. `id()` draws an id that
was never drawn: the next number. -/
structure Ledger (C K H : Type) where
  tables : Int → Table (Record.id (C := C))
  days : Table DayRow.date
  versions : List (Version H)
  sums : Nat → K → Int
  issues : List (Int × Pass × Reason)
  history : Option (History H)
  firstDate : Option Int
  frontier : Option Int
  summaryFrom : Int
  nextVersion : Nat

namespace Ledger

/-! ### Raw writes -/

variable (s : Ledger C K H)

/-- `touchRawDayCount`. -/
def touchRawDay (date : Int) (changes : Nat) : Ledger C K H :=
  let row := (s.days.find date).getD ⟨date, 1, .pending, none, none, none⟩
  let touched := if 0 < changes then ⟨row.date, row.revision + changes, .pending, none, none, none⟩ else row
  { s with
    days := s.days.put touched
    frontier := some (s.frontier.elim date (max date))
    firstDate := some (s.firstDate.elim date (min date)) }

/-- The row is inserted, or put in the place of the one that has its id. -/
def store (name : Int) (r : Record C) : Ledger C K H :=
  { s with tables := Function.update s.tables name ((s.tables name).put r) }

/-- `insertCollectionRows`: a row that is there after all fails the transaction. -/
def insertCollectionRows (name : Int) (s : Ledger C K H) : List (Record C) → Option (Ledger C K H)
  | [] => some s
  | r :: rest => if ((s.tables name).find r.id).isSome then none else insertCollectionRows name (s.store name r) rest

section Writes
variable [DecidableEq C]

def writeRaw (s : Ledger C K H) (r : Record C) : Option (Ledger C K H) :=
  if r.id < 0 then none
  else if (s.tables (table (day r.created))).find r.id = some r then some (s.touchRawDay (day r.created) 0)
  else some ((s.store (table (day r.created)) r).touchRawDay (day r.created) 1)

end Writes

/-! ### What a write does to a row or a date -/

@[simp] theorem touchRawDay_tables (date : Int) (changes : Nat) : (s.touchRawDay date changes).tables = s.tables := rfl

theorem mem_store {s : Ledger C K H} {name name' : Int} {r a : Record C} :
    a ∈ (s.store name r).tables name' ↔ if name' = name then a = r ∨ (a ∈ s.tables name ∧ a.id ≠ r.id) else a ∈ s.tables name' := by
  show a ∈ Function.update s.tables name ((s.tables name).put r) name' ↔ _
  by_cases h : name' = name
  · subst h
    rw [if_pos rfl, Function.update_self]
    exact Table.mem_put
  · rw [if_neg h, Function.update_of_ne h]

theorem find_touchRawDay (date d : Int) (changes : Nat) :
    (s.touchRawDay date changes).days.find d =
      if date = d then
        let row := (s.days.find date).getD ⟨date, 1, .pending, none, none, none⟩
        some (if 0 < changes then ⟨row.date, row.revision + changes, .pending, none, none, none⟩ else row)
      else s.days.find d := by
  have hdate : ((s.days.find date).getD ⟨date, 1, .pending, none, none, none⟩).date = date := by
    cases h : s.days.find date with
    | none => rfl
    | some row => exact (Table.find_eq_some.mp h).2
  rw [touchRawDay, Table.find_put]
  congr 1
  split
  next => rw [hdate]
  next => rw [hdate]

/-- Dates that are touched one after another. -/
theorem touchAll_same (changes : Int → Nat) (dates : List Int) (s : Ledger C K H) :
    let s' := dates.foldl (fun s date => s.touchRawDay date (changes date)) s
    s' = { s with days := s'.days, frontier := s'.frontier, firstDate := s'.firstDate } := by
  induction dates generalizing s with
  | nil => rfl
  | cons first dates ih => exact ih (s.touchRawDay first (changes first))

theorem mem_freshDates {fresh : List (Record C)} {date : Int} :
    date ∈ ((fresh.map fun r => day r.created).dedup).insertionSort (· ≤ ·) ↔ ∃ r ∈ fresh, day r.created = date := by
  simp

end Ledger

end ControlTower.Archive
