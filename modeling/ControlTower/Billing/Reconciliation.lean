import ControlTower.Billing.Settlement
import ControlTower.Data.Gather
import ControlTower.Go.Decimal
import Mathlib.Data.List.Sort

/-! The reconciliation of a bill with the quota that was deducted.

Aggregate rows and anomalies are gathered by user, or by user, day, model and group.
Every group has what was billed, what was deducted and what explains the difference;
the groups come out of a map, in an order of its own, and are then sorted. -/
namespace ControlTower.Billing
open Go Data

structure Price where
  effectiveFrom : Time
  tierFrom : Int
  input : String
  output : String
  cache : String
  cacheWrite : String

/-- What `ParseRatioSnapshot` reads, as far as it is used here. -/
structure RatioSnapshot where
  modelRatio : String → Option String
  createCacheRatio : String → Option String
  groupRatio : String → Option String
  quotaPerUnit : String

structure AggregateRow where
  userID : Int
  username : String
  modelName : String
  groupName : String
  tierFrom : Int
  day : Time
  requestCount : Int
  promptTokens : Int
  completionTokens : Int
  cacheTokens : Int
  quota : Int
  cacheWriteTokens : Int
  cacheWrite5mTokens : Int
  cacheWrite1hTokens : Int
  deriving DecidableEq

structure AnomalyCount where
  userID : Int
  day : Time
  modelName : String
  groupName : String
  count : Int
  amount : String
  deriving DecidableEq

/-- The other arguments, with the reader of a snapshot's JSON and the text of a day in
`BusinessLocation`. -/
structure Rates where
  prices : List (String × Price)
  ratios : List (String × String)
  snapshots : String → String
  parseRatioSnapshot : String → Except String RatioSnapshot
  formatDay : Time → String

/-! ### Amounts -/

def decimalOrZero (value : String) : String := if trimSpace value = "" then "0" else value

/-- The value of an integer of 64 bits. -/
def int64 (x : Int) : Int := x.bmod (2 ^ 64)

def tokenCost (tokens : Int) (price : Rat) : Rat := (max tokens 0 : Int) * price / 1000000

/-- `SelectPrice`: the base price of the latest schedule that was effective. -/
def selectPrice (prices : List Price) (occurredAt : Time) : Option Price :=
  let current := prices.foldl (fun current price =>
    if occurredAt < price.effectiveFrom then current
    else if current.isZero ∨ current < price.effectiveFrom then price.effectiveFrom else current) Time.zero
  if current.isZero then none else prices.find? fun price => price.effectiveFrom = current && price.tierFrom = 0

def selectPriceForTier (prices : List Price) (occurredAt : Time) (_tier : Int) : Option Price := selectPrice prices occurredAt

def quotaPerUnitForReport (parse : String → Except String RatioSnapshot) (raw : String) : Option String :=
  if trimSpace raw = "" then some "500000"
  else match parse raw with
    | .error "QuotaPerUnit missing" => some "500000"
    | .error _ => none
    | .ok snapshot => some snapshot.quotaPerUnit

def amountFromQuota (quota : Int) (quotaPerUnit : String) : Option Rat := do
  let unit ← decimalRat quotaPerUnit
  if unit = 0 then none else some ((max quota 0 : Int) / unit)

/-- The cost of the cache writes, which three places of the source compute alike: those
that are not told to last an hour cost as much as those of five minutes. -/
def AggregateRow.writeCost (row : AggregateRow) (price5m price1h : Rat) : Rat :=
  let remaining := max (int64 (int64 (row.cacheWriteTokens - row.cacheWrite5mTokens) - row.cacheWrite1hTokens)) 0
  tokenCost (int64 (row.cacheWrite5mTokens + remaining)) price5m + tokenCost row.cacheWrite1hTokens price1h

/-- `Amount`, for the usage of an aggregate row. -/
def chargeAmount (row : AggregateRow) (price : Price) (ratio : String) : Option Rat := do
  let inputPrice ← decimalRat price.input
  let outputPrice ← decimalRat price.output
  let cachePrice ← decimalRat price.cache
  let cacheWritePrice ← decimalRat (decimalOrZero price.cacheWrite)
  let groupRatio ← decimalRat ratio
  some ((tokenCost row.promptTokens inputPrice + tokenCost row.cacheTokens cachePrice +
    row.writeCost cacheWritePrice (cacheWritePrice * (8 / 5)) + tokenCost row.completionTokens outputPrice) * groupRatio)

def priceWithSnapshotCacheWrite (parse : String → Except String RatioSnapshot) (price : Price) (raw model : String) : Price :=
  if trimSpace raw = "" then price
  else match parse raw with
    | .error _ => price
    | .ok snapshot =>
      if (snapshot.createCacheRatio model).isSome then price
      else match decimalRat price.input with
        | none => price
        | some input => { price with cacheWrite := floatString (input * (5 / 4)) 12 }

def ctCacheWriteCharged (row : AggregateRow) (price : Price) (ratio : String) : Rat :=
  if row.cacheWriteTokens ≤ 0 then 0
  else match decimalRat (decimalOrZero price.cacheWrite) with
    | none => 0
    | some writePrice =>
      if writePrice = 0 then 0
      else row.writeCost writePrice (writePrice * (8 / 5)) * (decimalRat ratio).getD 1

def estimatedCacheWritePolicy (parse : String → Except String RatioSnapshot) (row : AggregateRow) (raw : String) : Rat :=
  if row.cacheWriteTokens ≤ 0 ∨ trimSpace raw = "" then 0
  else Option.getD (do
    let snapshot ← (parse raw).toOption
    let modelRatio ← decimalRat (← snapshot.modelRatio row.modelName)
    let quotaPerUnit ← decimalRat snapshot.quotaPerUnit
    if quotaPerUnit = 0 then none
    let input := modelRatio * 1000000 / quotaPerUnit
    let writeRatio := (snapshot.createCacheRatio row.modelName).getD ""
    let writeRatio ← decimalRat (if writeRatio = "" then "1.25" else writeRatio)
    let group := (snapshot.groupRatio row.groupName).getD ""
    let groupRatio ← decimalRat (if group = "" then "1" else group)
    some (row.writeCost (input * writeRatio) (input * 2) * groupRatio)) 0

/-- What a row adds to its group. -/
structure RowAmounts where
  ct : Rat
  actual : Rat
  cacheWrite : Rat
  fallbackPriced : Bool

/-- The price that is configured for a row. -/
def Rates.configured (rates : Rates) (row : AggregateRow) : Option Price :=
  let prices := (rates.prices.filter fun p => p.1 = row.modelName).map Prod.snd
  selectPriceForTier prices row.day row.tierFrom

def Rates.amounts (rates : Rates) (row : AggregateRow) : RowAmounts :=
  let raw := rates.snapshots (rates.formatDay row.day)
  let actual := ((quotaPerUnitForReport rates.parseRatioSnapshot raw).bind (amountFromQuota row.quota)).getD 0
  match rates.configured row with
  | none => ⟨actual, actual, 0, true⟩
  | some price =>
    let price := priceWithSnapshotCacheWrite rates.parseRatioSnapshot price raw row.modelName
    let ratio := ((rates.ratios.reverse.find? fun r => r.1 = row.groupName).map Prod.snd).getD ""
    let ratio := if ratio = "" then "1" else ratio
    ⟨(chargeAmount row price ratio).getD 0, actual,
      estimatedCacheWritePolicy rates.parseRatioSnapshot row raw - ctCacheWriteCharged row price ratio, false⟩

/-! ### Groups -/

/-- `reconciliationAcc`; the residual is left to `Acc.residual`. -/
structure Acc where
  userID : Int
  username : String
  day : String
  modelName : String
  groupName : String
  requestCount : Int
  abnormalRows : Int
  fallbackPriced : Bool
  ct : Rat
  actual : Rat
  anomaly : Rat
  cacheWrite : Rat

inductive ReconciliationItem
  | row (r : AggregateRow)
  | anomaly (a : AnomalyCount)

namespace ReconciliationItem

def userID : ReconciliationItem → Int
  | row r => r.userID
  | anomaly a => a.userID

/-- Day, model and group, which a report by user leaves out. -/
def labels (rates : Rates) (detail : Bool) : ReconciliationItem → String × String × String
  | row r => if detail then (rates.formatDay r.day, r.modelName, r.groupName) else ("", "", "")
  | anomaly a => if detail then (rates.formatDay a.day, a.modelName, a.groupName) else ("", "", "")

/-- `keyFor`. -/
def key (rates : Rates) (detail : Bool) (i : ReconciliationItem) : String :=
  if detail then
    let (day, model, group) := i.labels rates detail
    formatInt i.userID ++ "\x00" ++ day ++ "\x00" ++ model ++ "\x00" ++ group
  else formatInt i.userID

def username : ReconciliationItem → String
  | row r => r.username
  | anomaly _ => ""

/-- The group that `ensure` makes for the first item of a key. -/
def blank (rates : Rates) (detail : Bool) (i : ReconciliationItem) : Acc :=
  let (day, model, group) := i.labels rates detail
  ⟨i.userID, i.username, day, model, group, 0, 0, false, 0, 0, 0, 0⟩

end ReconciliationItem

def anomalyAmount (a : AnomalyCount) : Rat := (decimalRat (decimalOrZero a.amount)).getD 0

/-- What the loops do with a row and with an anomaly, after `ensure`. -/
def Acc.add (rates : Rates) (s : Acc) (i : ReconciliationItem) : Acc :=
  let s := if s.username = "" then { s with username := i.username } else s
  match i with
  | .row r =>
    let amounts := rates.amounts r
    { s with requestCount := int64 (s.requestCount + r.requestCount), actual := s.actual + amounts.actual, ct := s.ct + amounts.ct,
             cacheWrite := s.cacheWrite + amounts.cacheWrite, fallbackPriced := s.fallbackPriced || amounts.fallbackPriced }
  | .anomaly a =>
    { s with abnormalRows := int64 (s.abnormalRows + a.count), actual := s.actual + anomalyAmount a,
             anomaly := s.anomaly + anomalyAmount a }

def reconciliationGather (rates : Rates) (detail : Bool) : Gather ReconciliationItem String Acc where
  key := ReconciliationItem.key rates detail
  first i := (i.blank rates detail).add rates i
  add := Acc.add rates

/-- The map of groups. -/
def reconciliationValues (rates : Rates) (detail : Bool) (rows : List AggregateRow) (anomalies : List AnomalyCount) :
    Gather.Groups String Acc :=
  (reconciliationGather rates detail).groups (rows.map .row ++ anomalies.map .anomaly)

/-! ### The report -/

structure ReconciliationBreakdown where
  anomaly : String
  cacheWritePolicy : String
  residual : String
  deriving DecidableEq

structure ReconciliationRow where
  userID : Int
  username : String
  day : String
  modelName : String
  groupName : String
  requestCount : Int
  abnormalRows : Int
  billingAmount : String
  actualAmount : String
  diffAmount : String
  diffRate : String
  fallbackPriced : Bool
  classification : String
  breakdown : ReconciliationBreakdown
  deriving DecidableEq

structure ReconciliationTotals where
  billingAmount : String
  actualAmount : String
  diffAmount : String
  breakdown : ReconciliationBreakdown
  deriving DecidableEq

structure ReconciliationReport where
  rows : List ReconciliationRow
  totals : ReconciliationTotals
  deriving DecidableEq

def classifyReconciliation (anomaly cacheWrite residual : Rat) : String :=
  let (label, largest) := if |anomaly| < |cacheWrite| then ("cache_write_policy", |cacheWrite|) else ("anomaly", |anomaly|)
  if largest < |residual| then "residual" else label

/-- The amounts of a group, or of a whole report. -/
inductive Component
  | billed | actual | anomaly | cacheWrite | residual
  deriving DecidableEq

def residual (ct actual anomaly cacheWrite : Rat) : Rat := actual - ct - anomaly - cacheWrite

def Acc.amounts (a : Acc) : Component → Rat
  | .billed => a.ct
  | .actual => a.actual
  | .anomaly => a.anomaly
  | .cacheWrite => a.cacheWrite
  | .residual => residual a.ct a.actual a.anomaly a.cacheWrite

def breakdown (amounts : Component → Rat) : ReconciliationBreakdown :=
  ⟨floatString (amounts .anomaly) 6, floatString (amounts .cacheWrite) 6, floatString (amounts .residual) 6⟩

def Acc.row (a : Acc) : ReconciliationRow where
  userID := a.userID
  username := a.username
  day := a.day
  modelName := a.modelName
  groupName := a.groupName
  requestCount := a.requestCount
  abnormalRows := a.abnormalRows
  billingAmount := floatString a.ct 6
  actualAmount := floatString a.actual 6
  diffAmount := floatString (a.actual - a.ct) 6
  diffRate := if a.actual = 0 then "0.000000" else floatString ((a.actual - a.ct) / a.actual) 6
  fallbackPriced := a.fallbackPriced
  classification := classifyReconciliation a.anomaly a.cacheWrite (a.amounts .residual)
  breakdown := breakdown a.amounts

/-- `signedRat`, with zero for its error as `absRat` takes it. -/
def signedRat (value : String) : Rat := (ratSetString (trimSpace value)).getD 0

/-- The comparison of `sort.Slice`. -/
def ReconciliationRow.less (a b : ReconciliationRow) : Bool :=
  if a.fallbackPriced ≠ b.fallbackPriced then !a.fallbackPriced
  else
    let left := |signedRat a.diffAmount|
    let right := |signedRat b.diffAmount|
    if left ≠ right then right < left
    else if a.userID ≠ b.userID then a.userID < b.userID
    else b.day < a.day

/-- The totals that the loop over the groups adds up. -/
def totalAmounts (groups : List Acc) : Component → Rat :=
  let ct := groups.foldl (fun t a => t + a.ct) 0
  let actual := groups.foldl (fun t a => t + a.actual) 0
  let anomaly := groups.foldl (fun t a => t + a.anomaly) 0
  let cacheWrite := groups.foldl (fun t a => t + a.cacheWrite) 0
  fun
  | .billed => ct
  | .actual => actual
  | .anomaly => anomaly
  | .cacheWrite => cacheWrite
  | .residual => residual ct actual anomaly cacheWrite

def totals (groups : List Acc) : ReconciliationTotals :=
  let amounts := totalAmounts groups
  ⟨floatString (amounts .billed) 6, floatString (amounts .actual) 6, floatString (amounts .actual - amounts .billed) 6, breakdown amounts⟩

/-- The report of the groups in the order in which the map gives them. Rows that the
comparison does not tell apart stay in that order here; `sort.Slice` may leave them in
any. -/
def reportOf (groups : List Acc) : ReconciliationReport where
  rows := (groups.map Acc.row).insertionSort fun a b => !b.less a
  totals := totals groups

/-- `BuildReconciliation` may return the report: for some order of the map. -/
def BuildReconciliation (rates : Rates) (detail : Bool) (rows : List AggregateRow) (anomalies : List AnomalyCount)
    (report : ReconciliationReport) : Prop :=
  ∃ order : List (String × Acc), order.Perm (reconciliationValues rates detail rows anomalies).rows ∧ report = reportOf (order.map Prod.snd)

end ControlTower.Billing
