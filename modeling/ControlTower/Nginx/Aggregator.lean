import Mathlib.Data.List.Sort
import ControlTower.Data.Slice
import ControlTower.Go.Float
import ControlTower.Go.Time

/-! The timing buckets of nginx requests.

Requests are counted in buckets of a minute. A bucket is closed a while after its minute,
or earlier when too many are open; a closed bucket waits in a queue until a report that
contains it was acknowledged. The queue is bounded: a bucket that finds it full drops the
oldest one. -/
namespace ControlTower.Nginx
open Go Data

def minute : Int := 60000000000

/-- How many values of a bucket are kept for its percentiles, and how many slow requests. -/
def maxValuesPerBucket : Nat := 10000
def maxSamplesPerBucket : Nat := 5
/-- Half a day. -/
def maxQueuedBuckets : Nat := 720
def maxOpenBuckets : Nat := 5
/-- A bucket stays open five seconds past its minute. -/
def bucketCloseGrace : Int := 5000000000

/-- The begin of the minute. -/
def truncateMinute (t : Time) : Time := t - t % minute

/-- A request line. Values are finite numbers of a float64. -/
structure Entry where
  occurredAt : Time
  path : String
  status : Int
  rt : Rat
  uht : Rat
  urt : Rat
  bytes : Int
  requestID : String
  hasUpstream : Bool

/-- What is reported of a minute: counts, and three values of each distribution. -/
structure Bucket where
  bucketAt : Time
  requestCount : Int
  upstreamCount : Int
  status4xx : Int
  status5xx : Int
  status504 : Int
  /-- The median, the 95th percentile and the maximum. -/
  rt : Rat × Rat × Rat
  uht : Rat × Rat × Rat
  transfer : Rat × Rat × Rat
  bytesTotal : Int
  slowCount : Int
  slowTTFTCount : Int
  slowTransferCount : Int

structure SlowSample where
  occurredAt : Time
  path : String
  status : Int
  rt : Rat
  uht : Rat
  urt : Rat
  bytes : Int
  requestID : String

/-- A closed bucket that no acknowledged report has contained. -/
structure PendingBucket where
  bucket : Bucket
  samples : List SlowSample

/-- An open bucket, with the values its distributions will be taken from. -/
structure BucketState where
  bucket : Bucket
  rt : List Rat
  uht : List Rat
  transfer : List Rat
  samples : List SlowSample
  discarded : Int

/-- `open` has a bucket for each of its times; `closedThrough` is the zero time at first. -/
structure Aggregator where
  slowSeconds : Rat
  open_ : List BucketState
  closedThrough : Time
  forcedClosed : List Time
  queue : Slice PendingBucket
  warnedFull : Bool

def newAggregator (slowSeconds : Rat) : Aggregator := ⟨slowSeconds, [], Time.zero, [], .empty, false⟩

/-! ### Closing a bucket -/

/-- `quantile` in `stats`, over sorted values. -/
def quantile (sorted : List Rat) (p : Rat) : Rat :=
  let index := (nearestDouble (sorted.length * nearestDouble p)).ceil - 1
  sorted.getD index.toNat 0

/-- A distribution without values is all zero. -/
def stats (values : List Rat) : Rat × Rat × Rat :=
  if values = [] then (0, 0, 0)
  else
    let sorted := values.insertionSort (· ≤ ·)
    (quantile sorted (1 / 2), quantile sorted (19 / 20), sorted.getLastD 0)

namespace Aggregator

variable (a : Aggregator)

/-- At the bound the oldest bucket is dropped for the new one. -/
def enqueue (item : PendingBucket) : Aggregator :=
  if maxQueuedBuckets ≤ a.queue.items.length then
    { a with queue := (a.queue.drop 1).append item, warnedFull := true }
  else { a with queue := a.queue.append item }

def find (bucketAt : Time) : Option BucketState := a.open_.find? fun s => s.bucket.bucketAt = bucketAt

/-- The distributions are taken when the bucket is closed. -/
def closeBucket (bucketAt : Time) : Aggregator :=
  match a.find bucketAt with
  | none => a
  | some s =>
    let bucket := { s.bucket with rt := stats s.rt, uht := stats s.uht, transfer := stats s.transfer }
    { a with open_ := a.open_.filter fun s => s.bucket.bucketAt ≠ bucketAt }.enqueue ⟨bucket, s.samples⟩

/-- The least of the times, for which the zero time counts as none. -/
def oldest (a : Aggregator) : Time :=
  a.open_.foldl (fun oldest s => if oldest.isZero || s.bucket.bucketAt < oldest then s.bucket.bucketAt else oldest) Time.zero

/-- The times of `forcedClosed` are kept in the order of `forcedOrder`. -/
def closeOldest : Aggregator :=
  let oldest := a.oldest
  if oldest.isZero then a
  else
    let closed := a.closeBucket oldest
    let forced := closed.forcedClosed ++ [oldest]
    { closed with forcedClosed := if maxQueuedBuckets < forced.length then forced.drop 1 else forced }

/-! ### The calls -/

/-- A value is kept while there is room. -/
def appendValue (values : List Rat) (value : Rat) : List Rat × Int :=
  if values.length < maxValuesPerBucket then (values ++ [value], 0) else (values, 1)

/-- The bucket with a request more. -/
def count (slowSeconds : Rat) (s : BucketState) (e : Entry) : BucketState :=
  let b := s.bucket
  let slow := decide (slowSeconds ≤ e.rt)
  let ttft := e.hasUpstream && decide (nearestDouble (e.rt / 2) ≤ e.uht)
  let rt := appendValue s.rt e.rt
  let uht := if e.hasUpstream then appendValue s.uht e.uht else (s.uht, 0)
  let transfer := if e.hasUpstream then appendValue s.transfer (max 0 (nearestDouble (e.urt - e.uht))) else (s.transfer, 0)
  let sample : SlowSample := ⟨e.occurredAt, e.path, e.status, e.rt, e.uht, e.urt, e.bytes, e.requestID⟩
  { bucket :=
      { b with
        requestCount := b.requestCount + 1
        bytesTotal := b.bytesTotal + e.bytes
        status4xx := if 400 ≤ e.status ∧ e.status < 500 then b.status4xx + 1 else b.status4xx
        status504 := if e.status = 504 then b.status504 + 1 else b.status504
        status5xx := if e.status ≠ 504 ∧ 500 ≤ e.status ∧ e.status < 600 then b.status5xx + 1 else b.status5xx
        upstreamCount := if e.hasUpstream then b.upstreamCount + 1 else b.upstreamCount
        slowCount := if slow then b.slowCount + 1 else b.slowCount
        slowTTFTCount := if slow && ttft then b.slowTTFTCount + 1 else b.slowTTFTCount
        slowTransferCount := if slow && !ttft then b.slowTransferCount + 1 else b.slowTransferCount }
    rt := rt.1
    uht := uht.1
    transfer := transfer.1
    samples := if slow then ((s.samples ++ [sample]).insertionSort fun x y => y.rt ≤ x.rt).take maxSamplesPerBucket else s.samples
    discarded := s.discarded + rt.2 + uht.2 + transfer.2 }

def emptyBucket (bucketAt : Time) : BucketState :=
  ⟨⟨bucketAt, 0, 0, 0, 0, 0, (0, 0, 0), (0, 0, 0), (0, 0, 0), 0, 0, 0, 0⟩, [], [], [], [], 0⟩

/-- A request of a closed minute is not counted. A new bucket may close the oldest one. -/
def add (e : Entry) : Aggregator :=
  let bucketAt := truncateMinute e.occurredAt
  if !a.closedThrough.isZero && decide (bucketAt ≤ a.closedThrough) then a
  else if bucketAt ∈ a.forcedClosed then a
  else
    match a.find bucketAt with
    | some _ =>
      { a with open_ := a.open_.map fun s => if s.bucket.bucketAt = bucketAt then count a.slowSeconds s e else s }
    | none =>
      let a := if maxOpenBuckets ≤ a.open_.length then a.closeOldest else a
      { a with open_ := a.open_ ++ [count a.slowSeconds (emptyBucket bucketAt) e] }

/-- Buckets past their grace are closed, the oldest first. -/
def flush (now : Time) : Aggregator :=
  let cutoff := now - minute - bucketCloseGrace
  let due := ((a.open_.map fun s => s.bucket.bucketAt).filter fun bucketAt => bucketAt ≤ cutoff).insertionSort (· ≤ ·)
  let closed := due.foldl closeBucket a
  let closedThrough := truncateMinute cutoff
  if closed.closedThrough < closedThrough then
    { closed with closedThrough, forcedClosed := closed.forcedClosed.filter fun bucketAt => closedThrough < bucketAt }
  else closed

/-- A report has all that is queued. -/
def snapshot : List Bucket × List SlowSample :=
  (a.queue.items.map (·.bucket), a.queue.items.flatMap (·.samples))

/-- The front of the queue is removed, by count. -/
def ack (bucketCount : Nat) : Aggregator := { a with queue := a.queue.drop bucketCount }

end Aggregator

end ControlTower.Nginx
