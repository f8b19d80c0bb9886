import ControlTower.Billing.LogPricing
import Mathlib.Tactic.Linarith

/-! The quota of a log is rounded twice.

The total in quota is rounded to six decimals on its way through a text, and then to an
integer. The second rounding sees a half where the total is less than half a millionth
below one, and goes up; only the limits of 32 bits hide it. -/
namespace ControlTower.Billing
open Go

/-! ### Rounding once -/

/-- The nearest integer, halves away from zero. -/
def roundHalfAway (x : Rat) : Int := if x < 0 then -⌊-x + 1 / 2⌋ else ⌊x + 1 / 2⌋

/-- The limits of a signed integer of 32 bits. -/
def limit32 (n : Int) : Int := max (-2 ^ 31) (min (2 ^ 31 - 1) n)

theorem quotient_eq (n : Nat) {d : Nat} (hd : 0 < d) : (if d ≤ 2 * (n % d) then n / d + 1 else n / d) = (2 * n + d) / (2 * d) := by
  have hsplit : 2 * n + d = 2 * (n % d) + d + 2 * d * (n / d) := by
    have := Nat.div_add_mod n d
    nlinarith
  have hlt := Nat.mod_lt n hd
  rw [hsplit, Nat.add_mul_div_left _ _ (by omega)]
  split
  · next hhalf =>
    have hone : (2 * (n % d) + d) / (2 * d) = 1 := Nat.div_eq_of_lt_le (by omega) (by omega)
    rw [hone, Nat.add_comm]
  · next hhalf =>
    have hzero : (2 * (n % d) + d) / (2 * d) = 0 := Nat.div_eq_of_lt (by omega)
    rw [hzero, Nat.zero_add]

/-- `quotaFromRat` rounds once. -/
theorem quotaFromRat_eq (value : Rat) : quotaFromRat value = limit32 (roundHalfAway value) := by
  have hquotient : ((if value.den ≤ 2 * (value.num.natAbs % value.den) then ((value.num.natAbs / value.den : Nat) : Int) + 1
      else (value.num.natAbs / value.den : Nat)) : Int) = ⌊|value| + 1 / 2⌋ := by
    have hfloor := scaled_eq_floor value 0
    rw [scaled, pow_zero, pow_zero, mul_one, mul_one, ← quotient_eq _ value.den_pos] at hfloor
    rw [← hfloor]
    split <;> push_cast <;> rfl
  have hround : (if value < 0 then -⌊|value| + 1 / 2⌋ else ⌊|value| + 1 / 2⌋) = roundHalfAway value := by
    unfold roundHalfAway
    split
    · next hneg => rw [abs_of_neg hneg]
    · next hpos => rw [abs_of_nonneg (not_lt.mp hpos)]
  unfold quotaFromRat limit32
  simp only [hquotient, hround]
  split
  · omega
  · split <;> omega

/-! ### Rounding twice -/

/-- Rounded to six decimals, and the result to an integer. -/
theorem round_twice {x : Rat} (hx : 0 ≤ x) :
    roundHalfAway ((scaled x 6 : Rat) / 10 ^ 6) = ⌊x⌋ + if 4999995 / 10 ^ 7 ≤ Int.fract x then 1 else 0 := by
  have hscaled := scaled_eq_floor x 6
  rw [abs_of_nonneg hx] at hscaled
  have hlow : (scaled x 6 : Rat) ≤ x * 10 ^ 6 + 1 / 2 := by
    have := Int.floor_le (x * 10 ^ 6 + 1 / 2)
    rw [← hscaled] at this
    exact_mod_cast this
  have hfract := Int.floor_add_fract x
  have hfract0 := Int.fract_nonneg x
  have hfract1 := Int.fract_lt_one x
  rw [roundHalfAway, if_neg (not_lt.mpr (by positivity)), Int.floor_eq_iff]
  split
  · next hhalf =>
    -- the text has at least a half after the point
    have hdigits : ⌊x⌋ * 10 ^ 6 + 500000 ≤ (scaled x 6 : Int) := by
      rw [hscaled, Int.le_floor]
      push_cast
      linarith
    have hdigits : (⌊x⌋ : Rat) * 10 ^ 6 + 500000 ≤ scaled x 6 := by exact_mod_cast hdigits
    push_cast
    constructor <;> linarith
  · next hhalf =>
    have hdigits : (scaled x 6 : Int) < ⌊x⌋ * 10 ^ 6 + 500000 := by
      rw [hscaled, Int.floor_lt]
      push_cast
      linarith
    have hwhole : ⌊x⌋ * 10 ^ 6 ≤ (scaled x 6 : Int) := by
      rw [hscaled, Int.le_floor]
      push_cast
      linarith
    have hwhole : (⌊x⌋ : Rat) * 10 ^ 6 ≤ scaled x 6 := by exact_mod_cast hwhole
    push_cast
    constructor <;> linarith

theorem round_once {x : Rat} (hx : 0 ≤ x) : roundHalfAway x = ⌊x⌋ + if 1 / 2 ≤ Int.fract x then 1 else 0 := by
  have hfract := Int.floor_add_fract x
  have hfract0 := Int.fract_nonneg x
  have hfract1 := Int.fract_lt_one x
  rw [roundHalfAway, if_neg (not_lt.mpr hx), Int.floor_eq_iff]
  split <;> push_cast <;> constructor <;> linarith

/-- Less than half a millionth below half a unit, and below the limit. -/
def JustBelowHalf (x : Rat) : Prop := 4999995 / 10 ^ 7 ≤ Int.fract x ∧ Int.fract x < 1 / 2 ∧ ⌊x⌋ < 2 ^ 31 - 1

instance (x : Rat) : Decidable (JustBelowHalf x) := inferInstanceAs (Decidable (_ ∧ _ ∧ _))

/-- **Rounding twice is rounding once, but just below half a unit.** -/
theorem limit32_round_iff {x : Rat} (hx : 0 ≤ x) :
    limit32 (roundHalfAway ((scaled x 6 : Rat) / 10 ^ 6)) = limit32 (roundHalfAway x) ↔ ¬ JustBelowHalf x := by
  have hfloor := Int.floor_nonneg.mpr hx
  rw [round_twice hx, round_once hx, JustBelowHalf]
  generalize ⌊x⌋ = n at *
  unfold limit32
  by_cases hhalf : 1 / 2 ≤ Int.fract x
  · rw [if_pos hhalf, if_pos (by linarith)]
    simp only [true_iff, not_and]
    intro _ hlt
    exact absurd hhalf (not_le.mpr hlt)
  · rw [if_neg hhalf]
    have hlt := not_le.mp hhalf
    by_cases hnear : 4999995 / 10 ^ 7 ≤ Int.fract x
    · rw [if_pos hnear]
      simp only [hnear, hlt, true_and, not_lt]
      omega
    · rw [if_neg hnear]
      simp only [hnear, false_and, not_false_eq_true]

/-! ### The quota of a log -/

theorem decimalRat_floatString {x : Rat} (hx : 0 ≤ x) : decimalRat (floatString x 6) = some ((scaled x 6 : Rat) / 10 ^ 6) := by
  have hread := ratSetString_floatString (d := 6) (by decide) x
  rw [if_neg (not_lt.mpr hx)] at hread
  have hne : floatString x 6 ≠ "" := by
    intro hempty
    have hnone : ratSetString "" = none := by decide
    rw [hempty, hnone] at hread
    cases hread
  simp only [decimalRat, trimSpace_floatString x (d := 6) (by decide), if_neg hne, hread]
  rw [Option.filter_some, if_pos]
  simp only [decide_eq_true_eq]
  positivity

theorem verifyLogCharge_quota {reader : LogReader} {log : RatedLogRecord} {quotaPerUnit : String} {charge : LogCharge} {value : Rat}
    (hcharge : calculateLogCharge reader log quotaPerUnit = .ok charge) (hread : decimalRat charge.reconstructedQuota = some value) :
    ∃ result, verifyLogCharge reader log quotaPerUnit = .ok result ∧ result.calculatedQuota = quotaFromRat value := by
  simp only [verifyLogCharge, hcharge, bind, Except.bind, hread]
  exact ⟨_, rfl, rfl⟩

/-- The exact total of a log in quota. -/
def RatedLogRecord.exactQuota (reader : LogReader) (log : RatedLogRecord) (quotaPerUnit : String) : Rat :=
  log.exactTotal reader (ratioValue quotaPerUnit) * ratioValue quotaPerUnit

/-- A log that can be charged is verified, and the quota that is calculated is the exact
total rounded once exactly where the total is not just below half a unit. -/
theorem quota_rounded_once_iff (reader : LogReader) (log : RatedLogRecord) (quotaPerUnit : String) (charge : LogCharge)
    (hmode : log.billingMode ≠ "tiered_expr") (hcharge : calculateLogCharge reader log quotaPerUnit = .ok charge) :
    ∃ result, verifyLogCharge reader log quotaPerUnit = .ok result ∧
      (result.calculatedQuota = limit32 (roundHalfAway (log.exactQuota reader quotaPerUnit)) ↔
        ¬ JustBelowHalf (log.exactQuota reader quotaPerUnit)) := by
  obtain ⟨qpu, hqpu, hpositive, htext⟩ := calculateLogCharge_quota hmode hcharge
  have hvalue : ratioValue quotaPerUnit = qpu := by rw [ratioValue, hqpu, Option.getD_some]
  have hnonneg : 0 ≤ log.exactQuota reader quotaPerUnit := by
    rw [RatedLogRecord.exactQuota, hvalue]
    exact mul_nonneg (log.exactTotal_nonneg reader hpositive) hpositive.le
  have hread : decimalRat charge.reconstructedQuota = some ((scaled (log.exactQuota reader quotaPerUnit) 6 : Rat) / 10 ^ 6) := by
    rw [htext, ← hvalue]
    exact decimalRat_floatString hnonneg
  obtain ⟨result, hverify, hquota⟩ := verifyLogCharge_quota hcharge hread
  refine ⟨result, hverify, ?_⟩
  rw [hquota, quotaFromRat_eq]
  exact limit32_round_iff hnonneg

/-- Nothing is decoded, and nothing is charged by expression. -/
private def bareReader : LogReader := ⟨fun _ => .error "EOF", fun _ _ => .error "unsupported"⟩

private def perRequest (price : String) : RatedLogRecord where
  id := 1
  createdUnix := 0
  channelId := 1
  modelName := "m"
  quota := 0
  quotaBeforeDiscount := ""
  userModelDiscount := ""
  billingMode := ""
  usageSemantic := ""
  modelPrice := price
  modelRatio := ""
  groupRatio := "1"
  imageRatio := ""
  completionRatio := ""
  cacheRatio := ""
  cacheCreationRatio := ""
  cacheCreationRatio5m := ""
  cacheCreationRatio1h := ""
  toolSurcharges := ""
  sourcePromptTokens := none
  promptTokens := none
  completionTokens := none
  cacheTokens := 0
  cacheWriteTokens := 0
  cacheWrite5mTokens := 0
  cacheWrite1hTokens := 0
  imageInputTokens := 0
  imageOutputTokens := 0
  audioInputTokens := 0
  audioOutputTokens := 0

theorem quota_rounded_once_request :
    ∃ result, verifyLogCharge bareReader (perRequest "0.02") "500000" = .ok result ∧
      result.calculatedQuota = limit32 (roundHalfAway ((perRequest "0.02").exactQuota bareReader "500000")) := by
  have hok : (calculateLogCharge bareReader (perRequest "0.02") "500000").toOption.isSome = true := by decide +kernel
  cases hcharge : calculateLogCharge bareReader (perRequest "0.02") "500000" with
  | error e =>
    rw [hcharge] at hok
    cases hok
  | ok charge =>
    obtain ⟨result, hverify, hiff⟩ := quota_rounded_once_iff bareReader (perRequest "0.02") "500000" charge (by decide) hcharge
    exact ⟨result, hverify, hiff.mpr (by decide +kernel)⟩

/-- 0.000000999999 for a request is 0.4999995 in quota, which is written as a half. -/
theorem quota_rounded_twice :
    ((verifyLogCharge bareReader (perRequest "0.000000999999") "500000").toOption.map LogChargeVerification.calculatedQuota) = some 1 ∧
      (perRequest "0.000000999999").exactQuota bareReader "500000" = 4999995 / 10000000 ∧
      limit32 (roundHalfAway ((perRequest "0.000000999999").exactQuota bareReader "500000")) = 0 := by
  decide +kernel

end ControlTower.Billing
