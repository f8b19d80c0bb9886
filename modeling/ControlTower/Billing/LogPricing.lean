import ControlTower.Billing.Reconciliation
import Mathlib.Algebra.Order.BigOperators.Group.List
import Mathlib.Algebra.Order.Ring.Rat
import Mathlib.Tactic.Positivity

/-! The price of one log, from the ratios it was logged with.

A log is charged by request or by token. Every kind of token has its price in the input
price and a ratio of its own, and the ratio is asked for only where there are tokens; tools
are charged on top. The total in quota is written with six decimals, and read again to be
compared with the quota that was logged. -/
namespace ControlTower.Billing
open Go List

/-- A log with the ratios and counts that its price is made of. -/
structure RatedLogRecord extends PagedLogRecord where
  billingMode : String
  usageSemantic : String
  modelPrice : String
  modelRatio : String
  groupRatio : String
  imageRatio : String
  completionRatio : String
  cacheRatio : String
  cacheCreationRatio : String
  cacheCreationRatio5m : String
  cacheCreationRatio1h : String
  toolSurcharges : String
  sourcePromptTokens : Option Int
  promptTokens : Option Int
  completionTokens : Option Int
  cacheTokens : Int
  cacheWriteTokens : Int
  cacheWrite5mTokens : Int
  cacheWrite1hTokens : Int
  imageInputTokens : Int
  imageOutputTokens : Int
  audioInputTokens : Int
  audioOutputTokens : Int

open RatedLogRecord

structure LogCharge where
  mode : String
  perRequestPrice : String := ""
  inputPrice : String := ""
  inputAmount : String := ""
  imagePrice : String := ""
  imageAmount : String := ""
  outputPrice : String := ""
  outputAmount : String := ""
  cacheReadPrice : String := ""
  cacheReadAmount : String := ""
  cacheWritePrice : String := ""
  cacheWriteAmount : String := ""
  cacheWrite5mPrice : String := ""
  cacheWrite5mAmount : String := ""
  cacheWrite1hPrice : String := ""
  cacheWrite1hAmount : String := ""
  toolSurchargeAmount : String := ""
  total : String := ""
  reconstructedQuota : String := ""
  deriving DecidableEq

structure ToolSurchargeItem where
  name : String
  count : Int
  price : String
  deriving DecidableEq

/-- What other code says of a log: the JSON of its tool surcharges, and its charge in the
mode that is not priced here. -/
structure LogReader where
  decodeToolSurcharges : String → Except String (List ToolSurchargeItem)
  calculateTieredExprCharge : RatedLogRecord → String → Except String LogCharge

def requiredLogRatio (value name : String) : Except String Rat :=
  if value = "" then .error (name ++ " missing")
  else match decimalRat value with
    | none => .error ("invalid " ++ name)
    | some ratio => .ok ratio

/-- The unit price and the amount of one kind of token. -/
structure Lane where
  unit : Rat
  amount : Rat

/-- A kind of token with a ratio to the input price, which has to be there if it has tokens. -/
def lane (inputUnit : Rat) (tokens : Int) (raw name : String) : Except String (Option Lane) :=
  if 0 < tokens then do
    let ratio ← requiredLogRatio raw name
    .ok (some ⟨inputUnit * ratio, tokenCost tokens (inputUnit * ratio)⟩)
  else .ok none

def Lane.priceText (l : Option Lane) : String := l.elim "" fun l => floatString l.unit 6

def Lane.amountText (l : Option Lane) : String := l.elim "" fun l => floatString l.amount 6

def Lane.amountOf (l : Option Lane) : Rat := l.elim 0 Lane.amount

/-- The loop over the items of `addToolSurcharges`. -/
def surchargeOf (group : Rat) : List ToolSurchargeItem → Rat → Except String Rat
  | [], surcharge => .ok surcharge
  | item :: rest, surcharge =>
    if item.count ≤ 0 then surchargeOf group rest surcharge
    else match decimalRat item.price with
      | none => .error ("invalid tool surcharge price for " ++ item.name)
      | some price =>
        if price ≤ 0 then .error ("invalid tool surcharge price for " ++ item.name)
        else surchargeOf group rest (surcharge + price * (item.count / 1000) * group)

variable (reader : LogReader)

/-- What `addToolSurcharges` adds to the total. -/
def addToolSurcharges (raw : String) (group : Rat) : Except String Rat :=
  if raw = "" ∨ raw = "null" ∨ raw = "[]" then .ok 0
  else match reader.decodeToolSurcharges raw with
    | .error e => .error ("invalid tool_surcharges: " ++ e)
    | .ok items => surchargeOf group items 0

def surchargeText (surcharge : Rat) : String := if 0 < surcharge then floatString surcharge 6 else ""

def finishLogCharge (charge : LogCharge) (total qpu : Rat) : LogCharge :=
  { charge with total := floatString total 6, reconstructedQuota := floatString (total * qpu) 6 }

namespace RatedLogRecord

def remainingWrite (log : RatedLogRecord) : Int :=
  max 0 (int64 (int64 (log.cacheWriteTokens - log.cacheWrite5mTokens) - log.cacheWrite1hTokens))

def ratio5m (log : RatedLogRecord) : String := if log.cacheCreationRatio5m = "" then log.cacheCreationRatio else log.cacheCreationRatio5m

/-- The charge by token. -/
def tokenCharge (reader : LogReader) (log : RatedLogRecord) (qpu group : Rat) : Except String LogCharge := do
  let modelRatio ← requiredLogRatio log.modelRatio "model_ratio"
  let inputUnit := modelRatio * 1000000 / qpu * group
  let inputAmount := tokenCost (log.promptTokens.getD 0) inputUnit
  let image ← lane inputUnit log.imageInputTokens log.imageRatio "image_ratio"
  let output ← lane inputUnit (log.completionTokens.getD 0) log.completionRatio "completion_ratio"
  let cacheRead ← lane inputUnit log.cacheTokens log.cacheRatio "cache_ratio"
  let cacheWrite ← lane inputUnit log.remainingWrite log.cacheCreationRatio "cache_creation_ratio"
  let cacheWrite5m ← lane inputUnit log.cacheWrite5mTokens log.ratio5m "cache_creation_ratio_5m"
  let cacheWrite1h ← lane inputUnit log.cacheWrite1hTokens log.cacheCreationRatio1h "cache_creation_ratio_1h"
  let surcharge ← addToolSurcharges reader log.toolSurcharges group
  let charge : LogCharge :=
    { mode := "token"
      inputPrice := floatString inputUnit 6
      inputAmount := floatString inputAmount 6
      imagePrice := Lane.priceText image
      imageAmount := Lane.amountText image
      outputPrice := Lane.priceText output
      outputAmount := Lane.amountText output
      cacheReadPrice := Lane.priceText cacheRead
      cacheReadAmount := Lane.amountText cacheRead
      cacheWritePrice := Lane.priceText cacheWrite
      cacheWriteAmount := Lane.amountText cacheWrite
      cacheWrite5mPrice := Lane.priceText cacheWrite5m
      cacheWrite5mAmount := Lane.amountText cacheWrite5m
      cacheWrite1hPrice := Lane.priceText cacheWrite1h
      cacheWrite1hAmount := Lane.amountText cacheWrite1h
      toolSurchargeAmount := surchargeText surcharge }
  let total := inputAmount + Lane.amountOf image + Lane.amountOf output + Lane.amountOf cacheRead + Lane.amountOf cacheWrite +
    Lane.amountOf cacheWrite5m + Lane.amountOf cacheWrite1h + surcharge
  .ok (finishLogCharge charge total qpu)

/-- The charge by request. -/
def requestCharge (reader : LogReader) (log : RatedLogRecord) (qpu group modelPrice : Rat) : Except String LogCharge := do
  let surcharge ← addToolSurcharges reader log.toolSurcharges group
  let charge : LogCharge :=
    { mode := "per_request"
      perRequestPrice := floatString (modelPrice * group) 6
      toolSurchargeAmount := surchargeText surcharge }
  .ok (finishLogCharge charge (modelPrice * group + surcharge) qpu)

end RatedLogRecord

variable (log : RatedLogRecord)

def calculateLogCharge (quotaPerUnit : String) : Except String LogCharge :=
  if log.billingMode = "tiered_expr" then reader.calculateTieredExprCharge log quotaPerUnit
  else match decimalRat quotaPerUnit with
    | none => .error "invalid QuotaPerUnit"
    | some qpu =>
      if qpu ≤ 0 then .error "invalid QuotaPerUnit"
      else do
        let group ← requiredLogRatio log.groupRatio "group_ratio"
        match decimalRat log.modelPrice with
        | some modelPrice => log.requestCharge reader qpu group modelPrice
        | none => log.tokenCharge reader qpu group

/-- Half units away from zero, and the limits of 32 bits. -/
def quotaFromRat (value : Rat) : Int :=
  let quotient := value.num.natAbs / value.den
  let remainder := value.num.natAbs % value.den
  let quotient : Int := if value.den ≤ 2 * remainder then quotient + 1 else quotient
  let quotient := if value < 0 then -quotient else quotient
  if 2 ^ 31 - 1 < quotient then 2 ^ 31 - 1
  else if quotient < -2 ^ 31 then -2 ^ 31
  else quotient

structure LogChargeVerification where
  charge : LogCharge
  calculatedQuota : Int
  loggedQuota : Int
  difference : Int
  verified : Bool
  deriving DecidableEq

def quotaVerificationTolerance : Int := 1

/-- `if difference < 0 { difference = -difference }`, which leaves the least integer. -/
def int64Abs (x : Int) : Int := if x < 0 then int64 (-x) else x

def cacheOverflowExplainsLoggedQuota (charge : LogCharge) (quotaPerUnit : String) (loggedQuota : Int) : Bool :=
  match log.sourcePromptTokens with
  | none => false
  | some source =>
    if charge.mode ≠ "token" ∨ log.usageSemantic = "anthropic" ∨ 0 < log.imageInputTokens ∨ 0 < log.imageOutputTokens ∨
        0 < log.audioInputTokens ∨ 0 < log.audioOutputTokens ∨ log.promptTokens.getD 0 ≠ 0 then false
    else
      let overflowedBase := int64 (int64 (source - log.cacheTokens) - log.cacheWriteTokens)
      if 0 ≤ overflowedBase then false
      else match decimalRat charge.inputPrice, decimalRat charge.total, decimalRat quotaPerUnit with
        | some inputPrice, some total, some qpu =>
          if qpu ≤ 0 then false
          else
            let legacyQuota := (total + overflowedBase * inputPrice / 1000000) * qpu
            int64Abs (int64 (quotaFromRat legacyQuota - loggedQuota)) ≤ quotaVerificationTolerance
        | _, _, _ => false

def verifyLogCharge (quotaPerUnit : String) : Except String LogChargeVerification := do
  let charge ← calculateLogCharge reader log quotaPerUnit
  match decimalRat charge.reconstructedQuota with
  | none => .error ("invalid non-negative decimal: " ++ charge.reconstructedQuota)
  | some value =>
    let calculated := quotaFromRat value
    let difference := int64 (calculated - log.quota)
    .ok ⟨charge, calculated, log.quota, difference, int64Abs difference ≤ quotaVerificationTolerance ||
      cacheOverflowExplainsLoggedQuota log charge quotaPerUnit log.quota⟩

/-! ### The exact total -/

/-- A ratio as a number; one that is missing is zero. -/
@[irreducible] def ratioValue (raw : String) : Rat := (decimalRat raw).getD 0

/-- The kinds of token with the ratio of their price to the input price. -/
def RatedLogRecord.lanes : List (Int × Rat) :=
  [(log.promptTokens.getD 0, 1), (log.imageInputTokens, ratioValue log.imageRatio),
    (log.completionTokens.getD 0, ratioValue log.completionRatio), (log.cacheTokens, ratioValue log.cacheRatio),
    (log.remainingWrite, ratioValue log.cacheCreationRatio), (log.cacheWrite5mTokens, ratioValue log.ratio5m),
    (log.cacheWrite1hTokens, ratioValue log.cacheCreationRatio1h)]

/-- The tools of a log, in currency. -/
def RatedLogRecord.surcharge : Rat :=
  if log.toolSurcharges = "" ∨ log.toolSurcharges = "null" ∨ log.toolSurcharges = "[]" then 0
  else match reader.decodeToolSurcharges log.toolSurcharges with
    | .error _ => 0
    | .ok items => (items.map fun item => ratioValue item.price * (max item.count 0 / 1000) * ratioValue log.groupRatio).sum

/-- The total of a log with no rounding. -/
def RatedLogRecord.exactTotal (qpu : Rat) : Rat :=
  (match decimalRat log.modelPrice with
    | some modelPrice => modelPrice * ratioValue log.groupRatio
    | none => (log.lanes.map fun l =>
        tokenCost l.1 (ratioValue log.modelRatio * 1000000 / qpu * ratioValue log.groupRatio * l.2)).sum) + log.surcharge reader

theorem decimalRat_nonneg {value : String} {x : Rat} (h : decimalRat value = some x) : 0 ≤ x := by
  unfold decimalRat at h
  simp only at h
  split at h
  · cases h
  · have := (Option.filter_eq_some_iff.mp h).2
    simpa using this

theorem ratioValue_nonneg (raw : String) : 0 ≤ ratioValue raw := by
  unfold ratioValue
  cases h : decimalRat raw with
  | none => exact le_refl 0
  | some x => exact decimalRat_nonneg h

theorem requiredLogRatio_eq_ok {value name : String} {ratio : Rat} (h : requiredLogRatio value name = .ok ratio) : ratio = ratioValue value := by
  unfold requiredLogRatio at h
  split at h
  · cases h
  · unfold ratioValue
    cases hvalue : decimalRat value with
    | none => rw [hvalue] at h; cases h
    | some x => rw [hvalue] at h; cases h; rfl

theorem tokenCost_nonneg {tokens : Int} {price : Rat} (h : 0 ≤ price) : 0 ≤ tokenCost tokens price := by
  unfold tokenCost
  positivity

theorem tokenCost_of_nonpos {tokens : Int} (h : tokens ≤ 0) (price : Rat) : tokenCost tokens price = 0 := by
  simp [tokenCost, max_eq_right h]

/-- What a lane adds, whether it was left out or not. -/
theorem lane_eq_ok {inputUnit : Rat} {tokens : Int} {raw name : String} {l : Option Lane} (h : lane inputUnit tokens raw name = .ok l) :
    Lane.amountOf l = tokenCost tokens (inputUnit * ratioValue raw) := by
  unfold lane at h
  split at h
  · rw [bind_eq_ok] at h
    obtain ⟨ratio, hratio, hl⟩ := h
    cases hl
    rw [requiredLogRatio_eq_ok hratio]
    rfl
  · next hnone =>
    cases h
    rw [tokenCost_of_nonpos (not_lt.mp hnone)]
    rfl

/-- The loop adds the items that count. -/
theorem surchargeOf_eq_ok {group : Rat} {items : List ToolSurchargeItem} {surcharge result : Rat}
    (h : surchargeOf group items surcharge = .ok result) :
    result = surcharge + (items.map fun item => ratioValue item.price * (max item.count 0 / 1000) * group).sum := by
  induction items generalizing surcharge with
  | nil => cases h; simp
  | cons item items ih =>
    rw [surchargeOf] at h
    rw [map_cons, sum_cons]
    split at h
    · next hcount =>
      rw [ih h, max_eq_right (Int.cast_nonpos.mpr hcount)]
      ring
    · next hcount =>
      rw [ratioValue]
      cases hprice : decimalRat item.price with
      | none => rw [hprice] at h; cases h
      | some price =>
        rw [hprice] at h
        simp only at h
        split at h
        · cases h
        · rw [ih h, max_eq_left (Int.cast_nonneg (not_le.mp hcount).le), Option.getD_some]
          ring

theorem addToolSurcharges_eq_ok {reader : LogReader} {log : RatedLogRecord} {surcharge : Rat}
    (h : addToolSurcharges reader log.toolSurcharges (ratioValue log.groupRatio) = .ok surcharge) : surcharge = log.surcharge reader := by
  unfold addToolSurcharges at h
  unfold RatedLogRecord.surcharge
  split at h
  · next hnone =>
    cases h
    rw [if_pos hnone]
  · next hsome =>
    rw [if_neg hsome]
    cases hitems : reader.decodeToolSurcharges log.toolSurcharges with
    | error e => rw [hitems] at h; cases h
    | ok items =>
      rw [hitems] at h
      rw [surchargeOf_eq_ok h, zero_add]

theorem RatedLogRecord.surcharge_nonneg : 0 ≤ log.surcharge reader := by
  unfold surcharge
  split
  · exact le_refl 0
  · split
    · exact le_refl 0
    · refine sum_nonneg fun x hx => ?_
      obtain ⟨item, -, rfl⟩ := mem_map.mp hx
      have hprice := ratioValue_nonneg item.price
      have hgroup := ratioValue_nonneg log.groupRatio
      positivity

theorem RatedLogRecord.lanes_nonneg : ∀ l ∈ log.lanes, 0 ≤ l.2 := by
  intro l hl
  simp only [lanes, mem_cons, not_mem_nil, or_false] at hl
  rcases hl with rfl | rfl | rfl | rfl | rfl | rfl | rfl
  · exact zero_le_one
  all_goals exact ratioValue_nonneg _

theorem RatedLogRecord.exactTotal_nonneg {qpu : Rat} (hqpu : 0 < qpu) :
    0 ≤ log.exactTotal reader qpu := by
  have hgroup := ratioValue_nonneg log.groupRatio
  have hmodel := ratioValue_nonneg log.modelRatio
  refine add_nonneg ?_ (log.surcharge_nonneg reader)
  split
  · next hprice => exact mul_nonneg (decimalRat_nonneg hprice) hgroup
  · refine sum_nonneg fun x hx => ?_
    obtain ⟨l, hl, rfl⟩ := mem_map.mp hx
    have hratio := log.lanes_nonneg l hl
    exact tokenCost_nonneg (by positivity)

/-- **A charge writes the exact total in quota**, with six decimals. -/
theorem calculateLogCharge_quota {reader : LogReader} {log : RatedLogRecord} {quotaPerUnit : String} {charge : LogCharge}
    (hmode : log.billingMode ≠ "tiered_expr") (h : calculateLogCharge reader log quotaPerUnit = .ok charge) :
    ∃ qpu, decimalRat quotaPerUnit = some qpu ∧ 0 < qpu ∧ charge.reconstructedQuota = floatString (log.exactTotal reader qpu * qpu) 6 := by
  rw [calculateLogCharge, if_neg hmode] at h
  cases hqpu : decimalRat quotaPerUnit with
  | none => rw [hqpu] at h; cases h
  | some qpu =>
    rw [hqpu] at h
    simp only at h
    split at h
    · cases h
    · next hpositive =>
      refine ⟨qpu, rfl, not_le.mp hpositive, ?_⟩
      rw [bind_eq_ok] at h
      obtain ⟨group, hgroup, h⟩ := h
      have hgroup := requiredLogRatio_eq_ok hgroup
      subst hgroup
      unfold exactTotal
      cases hprice : decimalRat log.modelPrice with
      | some modelPrice =>
        rw [hprice] at h
        simp only [requestCharge, bind_eq_ok, Except.ok.injEq] at h
        obtain ⟨surcharge, hsurcharge, rfl⟩ := h
        rw [addToolSurcharges_eq_ok hsurcharge]
        rfl
      | none =>
        rw [hprice] at h
        simp only [tokenCharge, bind_eq_ok, Except.ok.injEq] at h
        obtain ⟨modelRatio, hmodel, image, himage, output, houtput, cacheRead, hread, cacheWrite, hwrite, cacheWrite5m, hwrite5m,
          cacheWrite1h, hwrite1h, surcharge, hsurcharge, rfl⟩ := h
        simp only [finishLogCharge, lanes, map_cons, map_nil, sum_cons, sum_nil, requiredLogRatio_eq_ok hmodel,
          lane_eq_ok himage, lane_eq_ok houtput, lane_eq_ok hread, lane_eq_ok hwrite, lane_eq_ok hwrite5m, lane_eq_ok hwrite1h,
          addToolSurcharges_eq_ok hsurcharge, mul_one, add_zero, add_assoc]

end ControlTower.Billing
