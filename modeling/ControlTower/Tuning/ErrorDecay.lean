import Mathlib.Algebra.Order.Field.Rat
import Mathlib.Data.List.Sort
import ControlTower.Go.Time

/-! The smoothed error rate of a channel.

Every evaluation folds the minute buckets that have settled since the last one into a
moving average, oldest first, and remembers the newest of them. Buckets are read for one
channel, the newest first and no more than the lookback has minutes (and one), or for
all channels of the site at once. -/
namespace ControlTower.Tuning.ErrorDecay
open Go

def minutes (n : Nat) : Int := n * 60000000000

def seconds (n : Nat) : Int := n * 1000000000

/-- What the fold reads of a dispatch policy; the first three are `Rules()`. -/
structure Params where
  errorAlpha : ℚ
  errorSettleSeconds : Nat
  errorLookbackMinutes : Nat
  errorHealthyRate : ℚ
  errorDegradedRate : ℚ
  errorPoorRate : ℚ
  errorFloorRate : ℚ
  errorDegradedFactor : ℚ
  errorPoorFactor : ℚ
  errorMinFactor : ℚ

namespace Params

/-- The checks on these fields. -/
structure Valid (p : Params) : Prop where
  alpha : 1 / 100 ≤ p.errorAlpha ∧ p.errorAlpha ≤ 1
  settle : p.errorSettleSeconds ≤ 3600
  lookback : 1 ≤ p.errorLookbackMinutes ∧ p.errorLookbackMinutes ≤ 2880
  rates : 0 ≤ p.errorHealthyRate ∧ p.errorHealthyRate < p.errorDegradedRate ∧
    p.errorDegradedRate < p.errorPoorRate ∧
    p.errorPoorRate < p.errorFloorRate ∧ p.errorFloorRate ≤ 1
  factors : 0 < p.errorMinFactor ∧ p.errorMinFactor < p.errorPoorFactor ∧
    p.errorPoorFactor < p.errorDegradedFactor ∧ p.errorDegradedFactor < 1

def lookback (p : Params) : Int := minutes p.errorLookbackMinutes

def settle (p : Params) : Int := seconds p.errorSettleSeconds

end Params

def legacyErrorRateWithPolicy (factor : ℚ) (p : Params) : ℚ :=
  if factor ≥ 1 then 0
  else if factor ≥ p.errorDegradedFactor then
    p.errorHealthyRate + (1 - factor) / (1 - p.errorDegradedFactor) *
      (p.errorDegradedRate - p.errorHealthyRate)
  else if factor ≥ p.errorPoorFactor then
    p.errorDegradedRate + (p.errorDegradedFactor - factor) /
      (p.errorDegradedFactor - p.errorPoorFactor) * (p.errorPoorRate - p.errorDegradedRate)
  else if factor ≥ p.errorMinFactor then
    p.errorPoorRate + (p.errorPoorFactor - factor) / (p.errorPoorFactor - p.errorMinFactor) *
      (p.errorFloorRate - p.errorPoorRate)
  else p.errorFloorRate

def reliabilityFactorWithPolicy (rate : ℚ) (p : Params) : ℚ :=
  if rate ≤ p.errorHealthyRate then 1
  else if rate ≤ p.errorDegradedRate then
    1 - (rate - p.errorHealthyRate) / (p.errorDegradedRate - p.errorHealthyRate) *
      (1 - p.errorDegradedFactor)
  else if rate ≤ p.errorPoorRate then
    p.errorDegradedFactor - (rate - p.errorDegradedRate) / (p.errorPoorRate - p.errorDegradedRate) *
      (p.errorDegradedFactor - p.errorPoorFactor)
  else if rate ≤ p.errorFloorRate then
    p.errorPoorFactor - (rate - p.errorPoorRate) / (p.errorFloorRate - p.errorPoorRate) *
      (p.errorPoorFactor - p.errorMinFactor)
  else p.errorMinFactor

/-! ### Buckets -/

/-- A row of `metric_1m` for a channel on an enabled instance of the site. -/
structure Metric where
  channelId : Int
  bucketTime : Time
  requestCount : Int
  errorCount : Int
  userErrorCount : Int

structure RecentChannelBucket where
  bucketTime : Time
  requestCount : Int
  errorCount : Int
  userErrorCount : Int
  deriving DecidableEq

/-- The sums of a group. -/
def bucketOf (moment : Time) (rows : List Metric) : RecentChannelBucket :=
  ⟨moment, (rows.map Metric.requestCount).sum, (rows.map Metric.errorCount).sum,
    (rows.map Metric.userErrorCount).sum⟩

/-- `GROUP BY bucket_time ORDER BY bucket_time DESC`. -/
def byTime (rows : List Metric) : List RecentChannelBucket :=
  ((rows.map Metric.bucketTime).dedup.insertionSort (· ≥ ·)).map fun moment =>
    bucketOf moment (rows.filter fun m => m.bucketTime == moment)

def queryRecentChannelBuckets (rows : List Metric) (channelId : Int) (since : Time) (limit : Nat) :
    List RecentChannelBucket :=
  (byTime (rows.filter fun m => m.channelId == channelId && decide (since ≤ m.bucketTime) &&
    decide (0 < m.requestCount))).take limit

/-- The groups of the site come in any order; the buckets of each channel are then sorted. -/
def queryRecentChannelBucketsBySite (rows : List Metric) (since : Time) (channelId : Int) :
    List RecentChannelBucket :=
  let rows := rows.filter fun m => decide (since ≤ m.bucketTime) && decide (0 < m.requestCount)
  let groups := (rows.map fun m => (m.channelId, m.bucketTime)).dedup.map fun key =>
    (key.1, bucketOf key.2 (rows.filter fun m => m.channelId == key.1 && m.bucketTime == key.2))
  ((groups.filter fun g => g.1 == channelId).map Prod.snd).insertionSort fun a b =>
    a.bucketTime ≥ b.bucketTime

/-! ### The fold -/

structure ContinuousState where
  smoothedErrorRate : ℚ
  kError : ℚ
  lastBucketAt : Option Time
  deriving DecidableEq

/-- The variables of the loop; the state's own cursor moves only after it. -/
structure Fold where
  smoothedErrorRate : ℚ
  kError : ℚ
  requests : Int
  channelErrors : Int
  newest : Option Time

/-- `t.After(*at)`, and true where there is nothing to come after. -/
def after (cursor : Option Time) (t : Time) : Bool := cursor.all fun moment => moment < t

/-- The one-time migration from a factor without a rate. -/
def migrate (p : Params) (state : ContinuousState) : ContinuousState :=
  if state.smoothedErrorRate = 0 ∧ 0 < state.kError ∧ state.kError < 1 then
    let rate := legacyErrorRateWithPolicy state.kError p
    { state with smoothedErrorRate := rate, kError := reliabilityFactorWithPolicy rate p }
  else state

def sinceOf (p : Params) (state : ContinuousState) (now : Time) : Time :=
  match state.lastBucketAt with
  | none => now - p.lookback
  | some moment => if now - p.lookback < moment then moment else now - p.lookback

/-- A bucket that is folded. -/
def Fold.add (p : Params) (f : Fold) (bucket : RecentChannelBucket) : Fold :=
  let errs := max (bucket.errorCount - bucket.userErrorCount) 0
  let f :=
    if 0 < bucket.requestCount then
      let rate : ℚ := errs / bucket.requestCount
      let smoothed := p.errorAlpha * rate + (1 - p.errorAlpha) * f.smoothedErrorRate
      { f with smoothedErrorRate := smoothed, kError := reliabilityFactorWithPolicy smoothed p }
    else f
  { f with
    requests := f.requests + bucket.requestCount
    channelErrors := f.channelErrors + errs
    newest := if after f.newest bucket.bucketTime then some bucket.bucketTime else f.newest }

/-- The loop, from the last bucket to the first. -/
def foldBuckets (p : Params) (state : ContinuousState) (settled : Time)
    (buckets : List RecentChannelBucket) : Fold :=
  buckets.reverse.foldl (fun f bucket =>
    if settled < bucket.bucketTime then f
    else if !after state.lastBucketAt bucket.bucketTime then f
    else f.add p bucket) ⟨state.smoothedErrorRate, state.kError, 0, 0, state.lastBucketAt⟩

/-- An evaluation: its time, and whether the buckets of the site were read at once. -/
structure Evaluation where
  now : Time
  bySite : Bool
  deriving DecidableEq

/-- The new state, the requests and the errors that were folded. -/
def foldErrorDecayWithBuckets (p : Params) (rows : List Metric) (channelId : Int)
    (state : ContinuousState) (e : Evaluation) : ContinuousState × Int × Int :=
  let state := migrate p state
  let buckets :=
    if e.bySite then queryRecentChannelBucketsBySite rows (e.now - p.lookback) channelId
    else queryRecentChannelBuckets rows channelId (sinceOf p state e.now)
      (p.errorLookbackMinutes + 1)
  let f := foldBuckets p state (e.now - p.settle) buckets
  (⟨f.smoothedErrorRate, f.kError, f.newest⟩, f.requests, f.channelErrors)

/-- Evaluations one after another, each on the rows of its moment: the last state and the
sums of what was folded. -/
def run (p : Params) (rows : Time → List Metric) (channelId : Int) :
    ContinuousState → List Evaluation → ContinuousState × Int × Int
  | state, [] => (state, 0, 0)
  | state, e :: rest =>
    let (state, requests, errors) := foldErrorDecayWithBuckets p (rows e.now) channelId state e
    let (state, requests', errors') := run p rows channelId state rest
    (state, requests + requests', errors + errors')

end ControlTower.Tuning.ErrorDecay
