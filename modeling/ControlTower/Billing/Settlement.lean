import ControlTower.Go.Checks
import ControlTower.Go.Rational
import ControlTower.Go.Time

/-! The price of one request: what was charged, and the discount rule of the
subject that applies at the instant of the request.

A rule holds on the half-open interval from `effectiveFrom` to `effectiveTo`, with
no end when there is none. `resolveSettlement` walks over the rules in the order
they come and refuses a second one that applies; what it returns depends on the
rules only through the one that applies (`resolveSettlement_congr`). -/
namespace ControlTower.Billing
open Go

inductive DiscountType
  | upstreamChannel
  | userModel
  deriving DecidableEq, Repr

inductive StatementKind
  | userStatement
  | upstreamStatement
  | other
  deriving DecidableEq, Repr

/-- The fields of a log record that settle its price. -/
structure PagedLogRecord where
  id : Int
  createdUnix : Int
  channelId : Int
  modelName : String
  quota : Int
  quotaBeforeDiscount : String
  userModelDiscount : String

structure StatementDiscount where
  discountType : DiscountType
  subjectId : Int
  channelId : Int
  modelName : String
  discount : String
  effectiveFrom : Time
  effectiveTo : Option Time
  sourceRuleId : Int
  deriving DecidableEq, Repr

inductive SettlementSource
  | newapi
  | ctSupplement
  | upstreamChannel
  deriving DecidableEq, Repr

structure Settlement where
  amount : String
  beforeAmount : String
  discount : String
  source : SettlementSource
  ruleId : Int
  deriving DecidableEq, Repr

inductive SettlementErr
  | invalidQuota
  | invalidUserModelDiscount (order : Int)
  | overlappingRules (order : Int)
  | invalidKind
  | invalidQuotaBeforeDiscount (order : Int)
  | invalidRule (rule : Int)
  deriving DecidableEq, Repr

/-- A non-negative decimal. -/
def decimalRat (value : String) : Option Rat :=
  let value := trimSpace value
  if value = "" then none else (ratSetString value).filter (0 ≤ ·)

/-- A decimal between zero and one. -/
def decimalRate (value : String) : Option Rat := (decimalRat value).filter (· ≤ 1)

variable (log : PagedLogRecord)

/-- `time.Unix(log.CreatedUnix, 0)`. -/
def PagedLogRecord.at : Time := log.createdUnix * 1000000000

namespace StatementDiscount

/-- The instant lies in the interval of the rule. -/
def holdsAt (r : StatementDiscount) (t : Time) : Bool :=
  decide (r.effectiveFrom ≤ t) && r.effectiveTo.all fun till => decide (t < till)

/-- None of the `continue`s of the loop skips the rule. -/
def applies (r : StatementDiscount) (log : PagedLogRecord) (kind : StatementKind) (subjectId : Int) : Bool :=
  r.subjectId == subjectId && r.holdsAt log.at &&
  !(kind == .userStatement && (r.discountType != .userModel || r.modelName != log.modelName)) &&
  !(kind == .upstreamStatement && (r.discountType != .upstreamChannel || r.channelId != log.channelId))

theorem holdsAt_iff {r : StatementDiscount} {t : Time} :
    r.holdsAt t = true ↔ r.effectiveFrom ≤ t ∧ ∀ till, r.effectiveTo = some till → t < till := by
  cases h : r.effectiveTo <;> simp [holdsAt, h]

end StatementDiscount

/-- The loop over the rules: the rule found so far, and the refusal of a second one. -/
def matchRules (log : PagedLogRecord) (kind : StatementKind) (subjectId : Int) :
    Option StatementDiscount → List StatementDiscount → Except SettlementErr (Option StatementDiscount)
  | matched, [] => .ok matched
  | matched, r :: rules =>
    if r.applies log kind subjectId then
      match matched with
      | some _ => .error (.overlappingRules log.id)
      | none => matchRules log kind subjectId (some r) rules
    else matchRules log kind subjectId matched rules

/-- The discount that the site itself applied to the request. -/
def reportedDiscount (kind : StatementKind) : Except SettlementErr Rat :=
  if kind = .userStatement ∧ trimSpace log.userModelDiscount ≠ "" then
    found (.invalidUserModelDiscount log.id) (decimalRate log.userModelDiscount)
  else .ok 1

/-- The charge of a request that the site discounted. Its price before the discount
is only known when the log carries it. -/
def discounted (qpu discount : Rat) : Settlement where
  amount := floatString (log.quota / qpu) 12
  beforeAmount := if log.quotaBeforeDiscount = "" then "" else
    (decimalRat log.quotaBeforeDiscount).elim "" fun base => floatString (base / qpu) 12
  discount := floatString discount 6
  source := .newapi
  ruleId := 0

/-- The quota before any discount: the one the log carries, or the charged one. -/
def baseQuota : Except SettlementErr Rat :=
  if log.quotaBeforeDiscount = "" then .ok log.quota
  else found (.invalidQuotaBeforeDiscount log.id) (decimalRat log.quotaBeforeDiscount)

/-- No rule at the instant of the request means full price. -/
def ruleRate : Option StatementDiscount → Except SettlementErr Rat
  | none => .ok 1
  | some r => found (.invalidRule r.sourceRuleId) (decimalRate r.discount)

/-- The price under the rule that was found. -/
def priced (kind : StatementKind) (qpu : Rat) (matched : Option StatementDiscount) :
    Except SettlementErr Settlement := do
  if kind = .userStatement ∧ matched.isNone then
    return { amount := floatString (log.quota / qpu) 12, beforeAmount := floatString (log.quota / qpu) 12,
             discount := "1", source := .newapi, ruleId := 0 }
  refuse .invalidKind (kind == .other)
  let base ← baseQuota log
  let rate ← ruleRate matched
  return { amount := floatString (base * rate / qpu) 12
           beforeAmount := floatString (base / qpu) 12
           discount := floatString rate 6
           source := if kind = .upstreamStatement then .upstreamChannel
             else if matched.isSome then .ctSupplement else .newapi
           ruleId := matched.elim 0 (·.sourceRuleId) }

def resolveSettlement (kind : StatementKind) (subjectId : Int)
    (rules : List StatementDiscount) (quotaPerUnit : String) : Except SettlementErr Settlement := do
  let qpu ← found .invalidQuota (decimalRat quotaPerUnit)
  refuse .invalidQuota (decide (qpu ≤ 0) || decide (log.quota < 0))
  let discount ← reportedDiscount log kind
  if kind = .userStatement ∧ discount ≠ 1 then
    return discounted log qpu discount
  let matched ← matchRules log kind subjectId none rules
  priced log kind qpu matched

/-! ### The rule that applies -/

section
variable {log : PagedLogRecord} {kind : StatementKind} {subjectId : Int} {rules rules' : List StatementDiscount}
  {quotaPerUnit : String}

/-- The rules that the loop does not skip. -/
def applying (log : PagedLogRecord) (kind : StatementKind) (subjectId : Int) (rules : List StatementDiscount) :
    List StatementDiscount :=
  rules.filter (·.applies log kind subjectId)

theorem applying_cons (r : StatementDiscount) :
    applying log kind subjectId (r :: rules) =
      if r.applies log kind subjectId then r :: applying log kind subjectId rules
      else applying log kind subjectId rules := by
  simp only [applying, List.filter_cons]

theorem matchRules_some (r : StatementDiscount) :
    matchRules log kind subjectId (some r) rules =
      if applying log kind subjectId rules = [] then .ok (some r) else .error (.overlappingRules log.id) := by
  induction rules with
  | nil => rfl
  | cons s rules ih =>
    rw [matchRules, applying_cons]
    by_cases hs : s.applies log kind subjectId = true
    · simp [hs]
    · simp [hs, ih]

/-- **The loop finds the rule that applies**, whatever order the rules come in, when
there is at most one. -/
theorem matchRules_eq (h : (applying log kind subjectId rules).length ≤ 1) :
    matchRules log kind subjectId none rules = .ok (applying log kind subjectId rules).head? := by
  induction rules with
  | nil => rfl
  | cons s rules ih =>
    rw [applying_cons] at h ⊢
    rw [matchRules]
    by_cases hs : s.applies log kind subjectId = true
    · rw [if_pos hs] at h
      have hnil : applying log kind subjectId rules = [] := by
        rw [List.length_cons] at h
        exact List.eq_nil_of_length_eq_zero (by omega)
      simp [hs, matchRules_some, hnil]
    · rw [if_neg hs] at h
      simp [hs, ih h]

/-- The loop is the only place that reads the rules. -/
theorem resolveSettlement_congr
    (h : matchRules log kind subjectId none rules = matchRules log kind subjectId none rules') :
    resolveSettlement log kind subjectId rules quotaPerUnit =
      resolveSettlement log kind subjectId rules' quotaPerUnit := by
  unfold resolveSettlement
  rw [h]

theorem reportedDiscount_ne_overlapping (order : Int) :
    reportedDiscount log kind ≠ .error (.overlappingRules order) := by
  unfold reportedDiscount
  split <;> simp

theorem priced_ne_overlapping {qpu : Rat} {matched : Option StatementDiscount} (order : Int) :
    priced log kind qpu matched ≠ .error (.overlappingRules order) := by
  have hbase : baseQuota log ≠ .error (.overlappingRules order) := by
    unfold baseQuota
    split <;> simp
  have hrate : ruleRate matched ≠ .error (.overlappingRules order) := by
    cases matched <;> simp [ruleRate]
  unfold priced
  split
  · simp [pure, Except.pure]
  · simp [bind_eq_error, hbase, hrate, pure, Except.pure]

/-- Only the loop complains about overlapping rules. -/
theorem resolveSettlement_ne_overlapping {matched : Option StatementDiscount}
    (h : matchRules log kind subjectId none rules = .ok matched) (order : Int) :
    resolveSettlement log kind subjectId rules quotaPerUnit ≠ .error (.overlappingRules order) := by
  intro he
  simp only [resolveSettlement, bind_eq_error, found_eq_error, refuse_eq_error, reduceCtorEq, and_false,
    false_or] at he
  obtain ⟨qpu, -, -, -, hreported | ⟨discount, -, he⟩⟩ := he
  · exact reportedDiscount_ne_overlapping order hreported
  · split at he
    · cases he
    · rw [h] at he
      exact priced_ne_overlapping order he

end

end ControlTower.Billing
