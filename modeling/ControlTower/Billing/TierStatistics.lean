import ControlTower.Billing.Pages
import ControlTower.Data.Gather
import ControlTower.Go.Decimal
import Mathlib.Algebra.Group.Submonoid.Defs
import Mathlib.Algebra.Ring.Rat
import Mathlib.Data.Finset.Basic
import Mathlib.Data.List.Sort

/-! Statistics of a bill by model, tier and discount.

Every request of a settled bill is added to the statistics of its model, tier and
discount. The amounts are kept as text, in twelve decimals, and the amount before the
discount is empty once one of the requests does not have it. The rows of one accumulator
can be added to another, which is how the statistics by tier come from those by model. -/
namespace ControlTower.Billing
open Go Data Finset

structure MultimediaUsage where
  imageInputTokens : Int
  imageOutputTokens : Int
  audioInputTokens : Int
  audioOutputTokens : Int
  deriving DecidableEq, Repr

namespace MultimediaUsage

def zero : MultimediaUsage := ⟨0, 0, 0, 0⟩

def add (u v : MultimediaUsage) : MultimediaUsage where
  imageInputTokens := u.imageInputTokens + v.imageInputTokens
  imageOutputTokens := u.imageOutputTokens + v.imageOutputTokens
  audioInputTokens := u.audioInputTokens + v.audioInputTokens
  audioOutputTokens := u.audioOutputTokens + v.audioOutputTokens

end MultimediaUsage

/-- `UnitPrices`, a map from texts to truth values: the keys that are true and those that
are false. The nil map is the empty one. -/
structure UnitPrices where
  present : Finset String
  absent : Finset String
  disjoint : Disjoint present absent
  deriving DecidableEq

namespace UnitPrices

def empty : UnitPrices := ⟨∅, ∅, disjoint_empty_left _⟩

/-- Prices that are all true. -/
def ofPresent (keys : Finset String) : UnitPrices := ⟨keys, ∅, disjoint_empty_right _⟩

/-- Sets keys to true. -/
def mark (p : UnitPrices) (keys : Finset String) : UnitPrices where
  present := p.present ∪ keys
  absent := p.absent \ keys
  disjoint := disjoint_union_left.mpr ⟨p.disjoint.mono_right sdiff_subset, disjoint_sdiff⟩

def unknownKey : String := "unknown|未记录"

def merge (p other : UnitPrices) : UnitPrices :=
  if other.present = ∅ ∧ other.absent = ∅ then p.mark {unknownKey} else p.mark other.present

end UnitPrices

structure TierStatistics where
  model : String
  tier : String
  discount : String
  requests : Int
  input : Int
  output : Int
  cacheRead : Int
  cacheWrite : Int
  multimediaUsage : MultimediaUsage
  amount : String
  beforeAmount : String
  prices : UnitPrices
  deriving DecidableEq

structure TierStatisticsKey where
  model : String
  tier : String
  discount : String
  deriving DecidableEq

/-- A request with what its charge says for the statistics: the total, the tier, the unit
prices and, where it is settled, the amount before the discount. -/
structure SettledDetail extends RequestDetail where
  total : String
  matchedTier : String
  settlementBefore : String
  unitPrices : UnitPrices

def mergeBefore (a b : String) : String :=
  match ratSetString a, ratSetString b with
  | some x, some y => floatString (x + y) 12
  | _, _ => ""

/-- `ChargeOriginal`. -/
def SettledDetail.chargeOriginal (d : SettledDetail) : String × String :=
  match d.charge.settled with
  | none => ("", "")
  | some _ => (d.settlementBefore, d.charge.discount)

namespace TierStatistics

def key (v : TierStatistics) : TierStatisticsKey := ⟨v.model, v.tier, v.discount⟩

/-- A new group, before its first member is counted. -/
def start (v : TierStatistics) : TierStatistics where
  model := v.model
  tier := v.tier
  discount := v.discount
  requests := 0
  input := 0
  output := 0
  cacheRead := 0
  cacheWrite := 0
  multimediaUsage := .zero
  amount := "0"
  beforeAmount := v.beforeAmount
  prices := .empty

/-- The rest of `Add`, which is the same for a new group and an old one. -/
def count (g v : TierStatistics) (amount : Rat) : TierStatistics :=
  { g with
    amount := floatString ((ratSetString g.amount).getD 0 + amount) 12
    requests := g.requests + v.requests
    input := g.input + v.input
    output := g.output + v.output
    cacheRead := g.cacheRead + v.cacheRead
    cacheWrite := g.cacheWrite + v.cacheWrite
    multimediaUsage := g.multimediaUsage.add v.multimediaUsage
    prices := g.prices.merge v.prices }

/-- The comparison of `Rows`. -/
def less (a b : TierStatistics) : Bool :=
  if a.model ≠ b.model then a.model < b.model
  else if a.tier ≠ b.tier then a.tier < b.tier
  else a.discount < b.discount

end TierStatistics

abbrev TierStatisticsAccumulator := Table (Prod.fst : TierStatisticsKey × TierStatistics → TierStatisticsKey)

namespace TierStatisticsAccumulator

def add (a : TierStatisticsAccumulator) (v : TierStatistics) : Except String TierStatisticsAccumulator :=
  match ratSetString v.amount with
  | none => .error "invalid tier settlement amount"
  | some amount =>
    let g := match a.find v.key with
      | none => v.start
      | some e => { e.2 with beforeAmount := mergeBefore e.2.beforeAmount v.beforeAmount }
    .ok (a.put (v.key, g.count v amount))

end TierStatisticsAccumulator

/-- The statistics of one request. -/
def SettledDetail.statistics (d : SettledDetail) : TierStatistics where
  model := d.modelName
  tier := d.matchedTier
  discount := discountGroupKey d.chargeOriginal.2
  requests := 1
  input := d.promptTokens
  output := d.completionTokens
  cacheRead := d.cacheReadTokens
  cacheWrite := d.cacheWriteTokens
  multimediaUsage := ⟨d.imageInputTokens, d.imageOutputTokens, d.audioInputTokens, d.audioOutputTokens⟩
  amount := d.total
  beforeAmount := d.chargeOriginal.1
  prices := d.unitPrices

namespace TierStatisticsAccumulator

def addDetail (a : TierStatisticsAccumulator) (d : SettledDetail) : Except String TierStatisticsAccumulator := a.add d.statistics

/-- Details added one after the other to a new accumulator, up to the first error. -/
def ofDetails (details : List SettledDetail) : Except String TierStatisticsAccumulator := details.foldlM addDetail Table.empty

def ofStatistics (rows : List TierStatistics) : Except String TierStatisticsAccumulator := rows.foldlM add Table.empty

/-- The result of `Rows` where the map is read in an order. -/
def rowsIn (order : List TierStatistics) : List TierStatistics := order.insertionSort fun a b => (!b.less a) = true

/-- The results that `Rows` can have: the map is read in any order. -/
def Rows (a : TierStatisticsAccumulator) (rows : List TierStatistics) : Prop :=
  ∃ order : List TierStatistics, order.Perm (a.rows.map Prod.snd) ∧ rows = rowsIn order

end TierStatisticsAccumulator

open TierStatisticsAccumulator in
/-- The results that `TierStatisticsByTier` can have. -/
def TierStatisticsByTier (rows : List TierStatistics) (result : Except String (List TierStatistics)) : Prop :=
  match ofStatistics (rows.map fun v => { v with model := "" }) with
  | .error e => result = .error e
  | .ok a => ∃ out, a.Rows out ∧ result = .ok out

/-! ### Amounts as text -/

/-- The rationals with so many decimals. -/
def places (d : Nat) : AddSubmonoid Rat where
  carrier := {x | HasPlaces d x}
  zero_mem' := ⟨0, by simp⟩
  add_mem' := HasPlaces.add

/-- The text of a number with at most twelve decimals. -/
def IsAmount (s : String) : Prop := ∃ x ∈ places 12, ratSetString s = some x

/-- An amount before the discount: the text of a number, or unknown. -/
def IsBefore (s : String) : Prop := s = "" ∨ IsAmount s

theorem ratSetString_empty : ratSetString "" = none := by decide

theorem mergeBefore_eq (a b : String) :
    mergeBefore a b = (Option.map₂ (· + ·) (ratSetString a) (ratSetString b)).elim "" fun x => floatString x 12 := by
  unfold mergeBefore
  cases ratSetString a <;> cases ratSetString b <;> rfl

theorem ratSetString_printed {x : Rat} (hx : x ∈ places 12) : ratSetString (floatString x 12) = some x :=
  ratSetString_places (by decide) hx

theorem IsBefore.mem {s : String} (h : IsBefore s) {x : Rat} (hx : ratSetString s = some x) : x ∈ places 12 := by
  rcases h with rfl | ⟨y, hy, hs⟩
  · rw [ratSetString_empty] at hx
    cases hx
  · rw [hs] at hx
    exact Option.some.inj hx ▸ hy

/-- The sum of two amounts reads as the sum, and as unknown where one of them is. -/
theorem ratSetString_mergeBefore {a b : String} (ha : IsBefore a) (hb : IsBefore b) :
    ratSetString (mergeBefore a b) = Option.map₂ (· + ·) (ratSetString a) (ratSetString b) := by
  rw [mergeBefore_eq]
  cases hx : ratSetString a with
  | none => exact ratSetString_empty
  | some x =>
    cases hy : ratSetString b with
    | none => exact ratSetString_empty
    | some y => exact ratSetString_printed (add_mem (ha.mem hx) (hb.mem hy))

theorem isBefore_mergeBefore {a b : String} (ha : IsBefore a) (hb : IsBefore b) : IsBefore (mergeBefore a b) := by
  have hread := ratSetString_mergeBefore ha hb
  cases hx : ratSetString a with
  | none => exact .inl (by rw [mergeBefore_eq, hx]; rfl)
  | some x =>
    cases hy : ratSetString b with
    | none => exact .inl (by rw [mergeBefore_eq, hx, hy]; rfl)
    | some y =>
      rw [hx, hy] at hread
      exact .inr ⟨x + y, add_mem (ha.mem hx) (hb.mem hy), hread⟩

theorem mergeBefore_comm (a b : String) : mergeBefore a b = mergeBefore b a := by
  rw [mergeBefore_eq, mergeBefore_eq, Option.map₂_comm add_comm]

theorem mergeBefore_assoc {a b c : String} (ha : IsBefore a) (hb : IsBefore b) (hc : IsBefore c) :
    mergeBefore (mergeBefore a b) c = mergeBefore a (mergeBefore b c) := by
  rw [mergeBefore_eq (mergeBefore a b), mergeBefore_eq a (mergeBefore b c), ratSetString_mergeBefore ha hb, ratSetString_mergeBefore hb hc, Option.map₂_assoc add_assoc]

end ControlTower.Billing
