import ControlTower.Billing.Settlement
import ControlTower.Data.Tally
import Mathlib.Algebra.Group.Pi.Basic

/-! A page of the source log, as a billing step takes it in.

Every log of a page is left out, kept as a diagnosis, set aside as an anomaly, or
charged. What is charged is added up by day, user, token, channel, model and
discount, first in memory by the very names and then in the table, whose collation
decides which names are one. -/
namespace ControlTower.Billing
open Go Data

deriving instance DecidableEq, Repr for PagedLogRecord

/-- A log of the source, with the fields that a step reads. -/
structure LogRecord extends PagedLogRecord where
  userId : Int
  tokenId : Int
  groupName : String
  promptTokens : Option Int
  completionTokens : Option Int
  cacheTokens : Int
  cacheWriteTokens : Int
  cacheWrite5mTokens : Int
  cacheWrite1hTokens : Int
  imageInputTokens : Int
  imageOutputTokens : Int
  audioInputTokens : Int
  audioOutputTokens : Int
  deriving DecidableEq, Repr

/-! ### Days -/

def nanosPerDay : Int := 86400 * 1000000000

/-- `BusinessLocation` is a fixed zone, eight hours ahead of UTC. -/
def businessOffset : Int := 8 * 3600 * 1000000000

/-- The calendar day in `BusinessLocation`, counted from the first of 1970. -/
def businessDay (t : Time) : Int := (t + businessOffset) / nanosPerDay

/-! ### What becomes of a log -/

/-- What `StatementLogCharge`, with `FallbackLogCharge` in its place for an incomplete
price, says of a log: the quota, and the discount of its settlement if it has one. -/
structure Charge where
  calculatedQuota : Int
  settled : Option String
  deriving DecidableEq, Repr

/-- The job, as far as it decides on logs. -/
structure Terms where
  usageVersion : Nat
  zeroOutputPeriod : Bool
  excludeZeroOutput : Bool
  /-- The models of a channel that an upstream statement is limited to, if any. -/
  upstreamModels : Int → List String
  maxContext : String → Int
  charge : LogRecord → Option Charge

def settlementUsageVersion : Nat := 3

/-- `AnomalyReasons`, which makes no use of the limit. -/
def anomalyReasons (log : LogRecord) (_maxContext : Int) : List String :=
  if log.completionTokens.isNone then ["output_token_missing"] else []

def statementAnomalyReasons (log : LogRecord) (maxContext : Int) (excludeZeroOutput : Bool) : List String :=
  anomalyReasons log maxContext ++
    if excludeZeroOutput && log.completionTokens == some 0 then ["output_token_zero"] else []

structure AnomalyOrder where
  sourceLogId : Int
  createdAt : Time
  userId : Int
  modelName : String
  groupName : String
  quota : Int
  reasons : List String
  deriving DecidableEq, Repr

structure RequestDetail where
  sourceLogId : Int
  billDay : Int
  userId : Int
  tokenId : Int
  channelId : Int
  modelName : String
  promptTokens : Int
  completionTokens : Int
  cacheReadTokens : Int
  cacheWriteTokens : Int
  cacheWrite5mTokens : Int
  cacheWrite1hTokens : Int
  imageInputTokens : Int
  imageOutputTokens : Int
  audioInputTokens : Int
  audioOutputTokens : Int
  charge : Charge
  deriving DecidableEq, Repr

/-- What becomes of a log: the branches of the loop over a page. -/
inductive Entry
  | skipped
  | diagnosed
  | abnormal (order : AnomalyOrder)
  | charged (detail : RequestDetail)

namespace LogRecord

variable (log : LogRecord)

/-- `statementDisplayUsage`, and the plain numbers for the first usage version. -/
def displayPrompt (usageVersion : Nat) : Int :=
  let prompt := log.promptTokens.getD 0
  if usageVersion = 0 then prompt else max 0 (prompt - max 0 log.audioInputTokens)

def displayCompletion (usageVersion : Nat) : Int :=
  let completion := log.completionTokens.getD 0
  if usageVersion = 0 then completion
  else max 0 (max 0 (completion - max 0 log.imageOutputTokens) - max 0 log.audioOutputTokens)

def anomaly (reasons : List String) : AnomalyOrder where
  sourceLogId := log.id
  createdAt := log.at
  userId := log.userId
  modelName := log.modelName
  groupName := log.groupName
  quota := log.quota
  reasons := reasons

def detail (usageVersion : Nat) (charge : Charge) : RequestDetail where
  sourceLogId := log.id
  billDay := businessDay log.at
  userId := log.userId
  tokenId := log.tokenId
  channelId := log.channelId
  modelName := log.modelName
  promptTokens := log.displayPrompt usageVersion
  completionTokens := log.displayCompletion usageVersion
  cacheReadTokens := log.cacheTokens
  cacheWriteTokens := log.cacheWriteTokens
  cacheWrite5mTokens := log.cacheWrite5mTokens
  cacheWrite1hTokens := log.cacheWrite1hTokens
  imageInputTokens := max 0 log.imageInputTokens
  imageOutputTokens := max 0 log.imageOutputTokens
  audioInputTokens := max 0 log.audioInputTokens
  audioOutputTokens := max 0 log.audioOutputTokens
  charge := charge

end LogRecord

namespace Terms

/-- One turn of the loop; `none` when the charge is refused, which ends the step. -/
def entry (terms : Terms) (log : LogRecord) : Option Entry :=
  let models := terms.upstreamModels log.channelId
  if terms.zeroOutputPeriod && log.completionTokens != some 0 then some .skipped
  else if !models.isEmpty && !models.contains log.modelName then some .skipped
  else
    (terms.charge log).map fun charge =>
      if decide (settlementUsageVersion ≤ terms.usageVersion) && terms.excludeZeroOutput &&
          log.completionTokens == some 0 then .diagnosed
      else
        let reasons := if terms.zeroOutputPeriod then []
          else statementAnomalyReasons log (terms.maxContext log.modelName) terms.excludeZeroOutput
        if reasons.isEmpty then .charged (log.detail terms.usageVersion charge) else .abnormal (log.anomaly reasons)

end Terms

/-- The rows that a page gives to the store. -/
structure PageRows where
  requestDetails : List RequestDetail
  anomalies : List AnomalyOrder

namespace PageRows

def empty : PageRows := ⟨[], []⟩

def including (rows : PageRows) : Entry → PageRows
  | .skipped | .diagnosed => rows
  | .abnormal order => { rows with anomalies := rows.anomalies ++ [order] }
  | .charged detail => { rows with requestDetails := rows.requestDetails ++ [detail] }

end PageRows

namespace Terms

/-- The request that a log is charged as. -/
def chargedAs (terms : Terms) (log : LogRecord) : Option RequestDetail :=
  match terms.entry log with
  | some (.charged detail) => some detail
  | _ => none

def anomalyOf (terms : Terms) (log : LogRecord) : Option AnomalyOrder :=
  match terms.entry log with
  | some (.abnormal order) => some order
  | _ => none

end Terms

/-- The loop over a page. -/
def Terms.page (terms : Terms) (logs : List LogRecord) : Option PageRows :=
  logs.foldlM (fun rows log => (terms.entry log).map rows.including) .empty

/-- What a page gives to the store, log by log. -/
theorem Terms.page_spec {terms : Terms} {logs : List LogRecord} {rows : PageRows} (h : terms.page logs = some rows) :
    rows.requestDetails = logs.filterMap terms.chargedAs ∧ rows.anomalies = logs.filterMap terms.anomalyOf ∧
      ∀ log ∈ logs, (terms.entry log).isSome := by
  have hfold : ∀ (logs : List LogRecord) (start : PageRows),
      logs.foldlM (fun rows log => (terms.entry log).map rows.including) start = some rows →
      rows.requestDetails = start.requestDetails ++ logs.filterMap terms.chargedAs ∧
      rows.anomalies = start.anomalies ++ logs.filterMap terms.anomalyOf ∧ ∀ log ∈ logs, (terms.entry log).isSome := by
    intro logs
    induction logs with
    | nil =>
      intro start h
      cases h
      simp
    | cons log logs ih =>
      intro start h
      cases he : terms.entry log with
      | none => simp [List.foldlM_cons, he] at h
      | some entry =>
        have hrest : logs.foldlM (fun rows log => (terms.entry log).map rows.including) (start.including entry) =
            some rows := by
          simpa [List.foldlM_cons, he] using h
        obtain ⟨h1, h2, h3⟩ := ih _ hrest
        refine ⟨?_, ?_, ?_⟩
        · cases entry <;> simp [h1, PageRows.including, Terms.chargedAs, he]
        · cases entry <;> simp [h2, PageRows.including, Terms.anomalyOf, he]
        · intro l hl
          rcases List.mem_cons.mp hl with rfl | hl
          · simp [he]
          · exact h3 l hl
  simpa [PageRows.empty] using hfold logs .empty h

/-! ### The compact table -/

inductive CompactColumn
  | requestCount
  | promptTokens
  | completionTokens
  | cacheReadTokens
  | cacheWriteTokens
  | cacheWrite5mTokens
  | cacheWrite1hTokens
  | calculatedQuota
  | imageInputTokens
  | imageOutputTokens
  | audioInputTokens
  | audioOutputTokens
  deriving DecidableEq, Repr

structure CompactKey (name : Type) where
  day : Int
  userId : Int
  tokenId : Int
  channelId : Int
  model : name
  discount : name
  deriving DecidableEq

abbrev CompactTotals (name : Type) := Tally (CompactKey name) (CompactColumn → Int)

/-- `DiscountGroupKey`. -/
def discountGroupKey (value : String) : String :=
  let value := trimSpace value
  if value = "" then "1.000000"
  else match ratSetString value with
    | some n => if 0 ≤ n then floatString n 6 else value
    | none => value

/-- The discount of `ChargeOriginal`. -/
def Charge.discount (c : Charge) : String :=
  match c.settled with
  | none => ""
  | some discount => ((ratSetString discount).map fun n => floatString n 6).getD discount

namespace RequestDetail

def key (d : RequestDetail) : CompactKey String where
  day := d.billDay
  userId := d.userId
  tokenId := d.tokenId
  channelId := d.channelId
  model := d.modelName
  discount := discountGroupKey d.charge.discount

def value (d : RequestDetail) : CompactColumn → Int
  | .requestCount => 1
  | .promptTokens => d.promptTokens
  | .completionTokens => d.completionTokens
  | .cacheReadTokens => d.cacheReadTokens
  | .cacheWriteTokens => d.cacheWriteTokens
  | .cacheWrite5mTokens => d.cacheWrite5mTokens
  | .cacheWrite1hTokens => d.cacheWrite1hTokens
  | .calculatedQuota => d.charge.calculatedQuota
  | .imageInputTokens => d.imageInputTokens
  | .imageOutputTokens => d.imageOutputTokens
  | .audioInputTokens => d.audioInputTokens
  | .audioOutputTokens => d.audioOutputTokens

end RequestDetail

section
variable {γ : Type} [DecidableEq γ] (collate : String → γ)

/-- The key as the table compares it. -/
def CompactKey.collated (k : CompactKey String) : CompactKey γ :=
  { k with model := collate k.model, discount := collate k.discount }

/-- The compact rows of `AppendBillingHour`: the page added up, then added to the table. -/
def appendCompact (t : CompactTotals γ) (details : List RequestDetail) : CompactTotals γ :=
  let compact : CompactTotals String := Tally.of (details.map fun d => (d.key, d.value))
  t.addAll (compact.rows.map fun e => (e.1.collated collate, e.2))

/-- The sums over a page come out as the sum over its requests. -/
theorem sumOn_appendCompact (t : CompactTotals γ) (details : List RequestDetail) (p : CompactKey γ → Bool) :
    (appendCompact collate t details).sumOn p =
      t.sumOn p + (details.map fun d => if p (d.key.collated collate) then d.value else 0).sum := by
  rw [appendCompact, Tally.sumOn_addAll, Tally.listed_rows_of]
  simp only [Tally.listed, List.map_map, Function.comp_def]

end

end ControlTower.Billing
