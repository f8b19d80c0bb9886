import ControlTower.Nginx.Aggregator

/-! What an acknowledgement removes.

A report takes a snapshot of the queue, and once it was received as many buckets are
removed from the queue's front as the snapshot had. Buckets that close in between are
appended; but where the queue is full, each drops one of the snapshot's, and the
acknowledgement then takes a bucket that no report has contained. -/
namespace ControlTower.Nginx
open Go Data List Slice Aggregator

/-! ### The queue under the calls -/

namespace Aggregator

variable (a : Aggregator)

theorem enqueue_shifts (item : PendingBucket) : a.queue.Shifts (a.enqueue item).queue := by
  unfold enqueue
  split
  · exact shifts_drop_append a.queue item
  · exact shifts_append a.queue item

theorem closeBucket_shifts (bucketAt : Time) : a.queue.Shifts (a.closeBucket bucketAt).queue := by
  unfold closeBucket
  split
  · exact .refl _
  · exact enqueue_shifts { a with open_ := a.open_.filter fun s => s.bucket.bucketAt ≠ bucketAt } _

theorem closeOldest_shifts : a.queue.Shifts a.closeOldest.queue := by
  unfold closeOldest
  simp only
  split
  · exact .refl _
  · exact closeBucket_shifts a a.oldest

theorem add_shifts (e : Entry) : a.queue.Shifts (a.add e).queue := by
  unfold add
  simp only
  split
  · exact .refl _
  · split
    · exact .refl _
    · split
      · exact .refl _
      · show a.queue.Shifts (if maxOpenBuckets ≤ a.open_.length then a.closeOldest else a).queue
        split
        · exact closeOldest_shifts a
        · exact .refl _

theorem closeAll_shifts (due : List Time) : a.queue.Shifts (due.foldl closeBucket a).queue := by
  induction due generalizing a with
  | nil => exact .refl _
  | cons bucketAt due ih => exact (closeBucket_shifts a bucketAt).trans (ih _)

theorem flush_shifts (now : Time) : a.queue.Shifts (a.flush now).queue := by
  unfold flush
  simp only
  split
  · exact closeAll_shifts a _
  · exact closeAll_shifts a _

end Aggregator

/-! ### Runs -/

inductive Call
  | add (e : Entry)
  | flush (now : Time)
  | snapshot
  /-- With the number of buckets of the last snapshot. -/
  | ack

/-- An acknowledgement: the buckets of its snapshot, those that were dropped since, those
that it removed and those it left, by their numbers. -/
structure Acked where
  snapshot : List Nat
  dropped : List Nat
  removed : List Nat
  left : List Nat

/-- The last snapshot, until it is acknowledged: the buckets of the report, their numbers in
the queue, and what was dropped since. -/
structure Taken where
  report : List Bucket
  snapshot : List Nat
  dropped : List Nat

structure World where
  aggregator : Aggregator
  taken : Option Taken
  dropped : List Nat
  acks : List Acked

open World

namespace World

/-- A call after which buckets may have been dropped. -/
def moved (w : World) (a : Aggregator) : World :=
  let lost := List.range' w.aggregator.queue.offset (a.queue.offset - w.aggregator.queue.offset)
  { aggregator := a
    taken := w.taken.map fun t => { t with dropped := t.dropped ++ lost }
    dropped := w.dropped ++ lost
    acks := w.acks }

/-- An acknowledgement follows a snapshot; without one it is not made. -/
def step (w : World) : Call → World
  | .add e => w.moved (w.aggregator.add e)
  | .flush now => w.moved (w.aggregator.flush now)
  | .snapshot => { w with taken := some ⟨w.aggregator.snapshot.1, w.aggregator.queue.numbers, []⟩ }
  | .ack =>
    match w.taken with
    | none => w
    | some t =>
      let a := w.aggregator.ack t.report.length
      let removed := List.range' w.aggregator.queue.offset (a.queue.offset - w.aggregator.queue.offset)
      { aggregator := a
        taken := none
        dropped := w.dropped
        acks := w.acks ++ [⟨t.snapshot, t.dropped, removed, a.queue.numbers⟩] }

def run (w : World) (calls : List Call) : World := calls.foldl step w

def start (slowSeconds : Rat) : World := ⟨newAggregator slowSeconds, none, [], []⟩

theorem run_append (w : World) (calls calls' : List Call) : w.run (calls ++ calls') = (w.run calls).run calls' :=
  foldl_append

end World

/-! ### What an acknowledgement owes -/

/-- It removed only what its snapshot had, and of that nothing is queued. -/
def Acked.Exact (a : Acked) : Prop := (∀ i ∈ a.removed, i ∈ a.snapshot) ∧ ∀ i ∈ a.snapshot, i ∉ a.left

/-- No bucket was dropped between the snapshot and its acknowledgement. -/
def Acked.Kept (a : Acked) : Prop := a.dropped = [] ∨ a.snapshot = []

/-- A snapshot and the queue since: from its front as many were dropped as the offset has
moved, each for a bucket that came after the snapshot. -/
def Taken.Of (q : Slice PendingBucket) (t : Taken) : Prop :=
  ∃ q₀ : Slice PendingBucket, t.report.length = q₀.items.length ∧ t.snapshot = q₀.numbers ∧
    q₀.Shifts q ∧ t.dropped = List.range' q₀.offset (q.offset - q₀.offset)

theorem Taken.Of.moved {q q' : Slice PendingBucket} {t : Taken} (h : t.Of q) (hq : q.Shifts q') :
    Taken.Of q' { t with dropped := t.dropped ++ List.range' q.offset (q'.offset - q.offset) } := by
  obtain ⟨q₀, hreport, hsnapshot, hshifts, hdropped⟩ := h
  refine ⟨q₀, hreport, hsnapshot, hshifts.trans hq, ?_⟩
  have h₁ := hshifts.offset
  have h₂ := hq.offset
  have hstart : q.offset = q₀.offset + 1 * (q.offset - q₀.offset) := by omega
  show t.dropped ++ _ = _
  rw [hdropped]
  nth_rewrite 2 [hstart]
  rw [List.range'_append]
  congr 1
  omega

/-- **An acknowledgement is exact if and only if nothing was dropped since its snapshot.** -/
theorem exact_iff_kept {q : Slice PendingBucket} {t : Taken} (h : t.Of q) :
    let q' := q.drop t.report.length
    Acked.Exact ⟨t.snapshot, t.dropped, List.range' q.offset (q'.offset - q.offset), q'.numbers⟩ ↔
      Acked.Kept ⟨t.snapshot, t.dropped, List.range' q.offset (q'.offset - q.offset), q'.numbers⟩ := by
  obtain ⟨q₀, hreport, hsnapshot, hshifts, hdropped⟩ := h
  have hoffset := hshifts.offset
  have hpaid := hshifts.paid
  have hlength : t.snapshot.length = q₀.items.length := by simp [hsnapshot, Slice.numbers]
  have hstop : q₀.stop = q₀.offset + q₀.items.length := rfl
  have hstop' : q.stop = q.offset + q.items.length := rfl
  have hleft : ∀ i ∈ t.snapshot, i ∉ (q.drop t.report.length).numbers := by
    intro i hi
    rw [hsnapshot, mem_numbers] at hi
    rw [mem_numbers, drop_offset, hreport]
    omega
  have hremoved :
      (∀ i ∈ List.range' q.offset ((q.drop t.report.length).offset - q.offset), i ∈ t.snapshot) ↔
        q.offset = q₀.offset ∨ q₀.items.length = 0 := by
    rw [drop_offset, hreport]
    constructor
    · intro hall
      by_contra hne
      have hlast := hall (q.offset + (q₀.items.length - 1)) (by rw [mem_range'_1]; omega)
      rw [hsnapshot, mem_numbers] at hlast
      omega
    · intro hor i hi
      rw [mem_range'_1] at hi
      rw [hsnapshot, mem_numbers]
      omega
  have hkept : (t.dropped = [] ∨ t.snapshot = []) ↔ q.offset = q₀.offset ∨ q₀.items.length = 0 := by
    rw [← length_eq_zero_iff (l := t.dropped), ← length_eq_zero_iff (l := t.snapshot), hlength, hdropped, length_range']
    omega
  exact (and_iff_left hleft).trans (hremoved.trans hkept.symm)

/-! ### Every run -/

structure Sound (w : World) : Prop where
  taken : ∀ t, w.taken = some t → t.Of w.aggregator.queue
  acks : ∀ a ∈ w.acks, a.Exact ↔ a.Kept
  /-- What has left was removed by an acknowledgement or dropped. -/
  gone : ∀ i < w.aggregator.queue.offset, i ∈ w.dropped ∨ ∃ a ∈ w.acks, i ∈ a.removed

variable {w : World} {a : Aggregator}

theorem Sound.moved (h : Sound w) (ha : w.aggregator.queue.Shifts a.queue) : Sound (w.moved a) where
  taken t ht := by
    obtain ⟨t₀, ht₀, rfl⟩ := Option.map_eq_some_iff.mp ht
    exact (h.taken t₀ ht₀).moved ha
  acks := h.acks
  gone i hi := by
    by_cases hold : i < w.aggregator.queue.offset
    · exact (h.gone i hold).imp_left (mem_append_left _)
    · refine .inl (mem_append_right _ (mem_range'_1.mpr ?_))
      have hnew : i < a.queue.offset := hi
      omega

theorem Sound.step (h : Sound w) (call : Call) : Sound (w.step call) := by
  cases call with
  | add e => exact h.moved (w.aggregator.add_shifts e)
  | flush now => exact h.moved (w.aggregator.flush_shifts now)
  | snapshot =>
    refine ⟨fun t ht => ?_, h.acks, h.gone⟩
    cases ht
    exact ⟨w.aggregator.queue, length_map _, rfl, .refl _, by simp [World.step]⟩
  | ack =>
    simp only [World.step]
    cases ht : w.taken with
    | none => exact h
    | some t =>
      refine ⟨by simp, fun a ha => ?_, fun i hi => ?_⟩
      · rcases mem_append.mp ha with ha | ha
        · exact h.acks a ha
        · rw [mem_singleton.mp ha]
          exact exact_iff_kept (h.taken t ht)
      · by_cases hold : i < w.aggregator.queue.offset
        · refine (h.gone i hold).imp_right fun ⟨a, ha, hr⟩ => ⟨a, mem_append_left _ ha, hr⟩
        · refine .inr ⟨_, mem_append_right _ (mem_singleton_self _), mem_range'_1.mpr ?_⟩
          have hnew : i < (w.aggregator.ack t.report.length).queue.offset := hi
          omega

theorem Sound.run (h : Sound w) (calls : List Call) : Sound (w.run calls) := by
  induction calls generalizing w with
  | nil => exact h
  | cons call calls ih => exact ih (h.step call)

/-- **Acknowledgements lose nothing exactly if no bucket is dropped while a snapshot waits for
its own.** Then what has left the queue was in an acknowledged snapshot or dropped for
overflow. -/
theorem acks_exact_iff (slowSeconds : Rat) (calls : List Call) :
    ((∀ a ∈ ((World.start slowSeconds).run calls).acks, a.Exact) ↔ ∀ a ∈ ((World.start slowSeconds).run calls).acks, a.Kept) ∧
      ((∀ a ∈ ((World.start slowSeconds).run calls).acks, a.Kept) →
        ∀ i < ((World.start slowSeconds).run calls).aggregator.queue.offset,
          i ∈ ((World.start slowSeconds).run calls).dropped ∨ ∃ a ∈ ((World.start slowSeconds).run calls).acks, i ∈ a.snapshot) := by
  have h : Sound ((World.start slowSeconds).run calls) := Sound.run ⟨by simp [World.start], by simp [World.start],
    fun i hi => absurd hi (Nat.not_lt_zero i)⟩ calls
  generalize (World.start slowSeconds).run calls = w at h
  constructor
  · exact forall₂_congr h.acks
  · intro hkept i hi
    refine (h.gone i hi).imp_right fun ⟨a, ha, hr⟩ => ⟨a, ha, ?_⟩
    exact ((h.acks a ha).mpr (hkept a ha)).1 i hr

/-! ### A queue that is full -/

/-- A request in the minute after `n`, and its bucket closed. -/
def minutely (n : Nat) : List Call :=
  [.add ⟨(n + 1) * minute, "/", 200, 0, 0, 0, 0, "", false⟩, .flush ((n + 2) * minute + bucketCloseGrace)]

/-- Ready for the minute after `n`. -/
structure Idle (n : Nat) (a : Aggregator) : Prop where
  opened : a.open_ = []
  forced : a.forcedClosed = []
  closed : a.closedThrough < (n + 1) * minute

theorem enqueue_open (a : Aggregator) (opened : List BucketState) (item : PendingBucket) :
    { a with open_ := opened }.enqueue item =
      { a with open_ := opened, queue := (a.enqueue item).queue, warnedFull := (a.enqueue item).warnedFull } := by
  unfold enqueue
  split <;> rfl

variable {n : Nat}

/-- The only open bucket is closed. -/
theorem flush_single (h : Idle n a) {s : BucketState} (hs : s.bucket.bucketAt = (n + 1) * minute) :
    ∃ item, ({ a with open_ := [s] }.flush ((n + 2) * minute + bucketCloseGrace)).queue = (a.enqueue item).queue ∧
      Idle (n + 1) ({ a with open_ := [s] }.flush ((n + 2) * minute + bucketCloseGrace)) := by
  have hcutoff : ((n : Int) + 2) * minute + bucketCloseGrace - minute - bucketCloseGrace = (n + 1) * minute := by ring
  have htruncate : truncateMinute (((n : Int) + 1) * minute) = (n + 1) * minute := by simp [truncateMinute]
  let item : PendingBucket := ⟨{ s.bucket with rt := stats s.rt, uht := stats s.uht, transfer := stats s.transfer }, s.samples⟩
  have hclose : { a with open_ := [s] }.closeBucket ((n + 1) * minute) =
      { a with open_ := [], queue := (a.enqueue item).queue, warnedFull := (a.enqueue item).warnedFull } := by
    have hfind : find { a with open_ := [s] } ((n + 1) * minute) = some s := by simp [find, hs]
    have hrest : [s].filter (fun s => s.bucket.bucketAt ≠ (n + 1) * minute) = [] := by simp [hs]
    unfold closeBucket
    rw [hfind]
    simp only [hrest]
    exact enqueue_open a [] item
  have hflush : { a with open_ := [s] }.flush ((n + 2) * minute + bucketCloseGrace) =
      { a with open_ := [], closedThrough := (n + 1) * minute, forcedClosed := [], queue := (a.enqueue item).queue,
               warnedFull := (a.enqueue item).warnedFull } := by
    have hdue : (([s].map fun s => s.bucket.bucketAt).filter fun bucketAt => bucketAt ≤ ((n : Int) + 1) * minute).insertionSort (· ≤ ·) =
        [((n : Int) + 1) * minute] := by simp [hs]
    unfold flush
    simp only [hcutoff, hdue, foldl_cons, foldl_nil, hclose, htruncate]
    rw [if_pos h.closed, h.forced, filter_nil]
  refine ⟨item, by rw [hflush], by rw [hflush], by rw [hflush], ?_⟩
  rw [hflush]
  have : (0 : Int) < minute := by decide
  show ((n : Int) + 1) * minute < ((n + 1 : Nat) + 1) * minute
  push_cast
  nlinarith

/-- The request opens a bucket, and the next minute closes it. -/
theorem Idle.minutely (h : Idle n a) :
    ∃ s item, a.add ⟨(n + 1) * minute, "/", 200, 0, 0, 0, 0, "", false⟩ = { a with open_ := [s] } ∧
      ({ a with open_ := [s] }.flush ((n + 2) * minute + bucketCloseGrace)).queue = (a.enqueue item).queue ∧
      Idle (n + 1) ({ a with open_ := [s] }.flush ((n + 2) * minute + bucketCloseGrace)) := by
  have htruncate : truncateMinute (((n : Int) + 1) * minute) = (n + 1) * minute := by simp [truncateMinute]
  have hlate : ¬ ((n : Int) + 1) * minute ≤ a.closedThrough := not_le.mpr h.closed
  let s := count a.slowSeconds (emptyBucket ((n + 1) * minute)) ⟨(n + 1) * minute, "/", 200, 0, 0, 0, 0, "", false⟩
  obtain ⟨item, hqueue, hidle⟩ := flush_single h (s := s) rfl
  refine ⟨s, item, ?_, hqueue, hidle⟩
  simp [add, htruncate, hlate, h.forced, find, h.opened, maxOpenBuckets, s]

/-- After as many minutes as the queue has room for, each of them has its bucket there. -/
structure Filled (n : Nat) (w : World) : Prop where
  idle : Idle n w.aggregator
  offset : w.aggregator.queue.offset = 0
  length : w.aggregator.queue.items.length = n

theorem Filled.minutely (h : Filled n w) (hn : n < maxQueuedBuckets) : Filled (n + 1) (w.run (minutely n)) := by
  obtain ⟨s, item, hadd, hqueue, hidle⟩ := h.idle.minutely
  have haggregator : (w.run (Nginx.minutely n)).aggregator =
      { w.aggregator with open_ := [s] }.flush ((n + 2) * minute + bucketCloseGrace) := by
    simp only [run, Nginx.minutely, foldl_cons, foldl_nil, step, moved, hadd]
  have hroom : ¬ maxQueuedBuckets ≤ w.aggregator.queue.items.length := by rw [h.length]; omega
  rw [enqueue, if_neg hroom] at hqueue
  refine ⟨haggregator ▸ hidle, ?_, ?_⟩
  · rw [haggregator, hqueue]
    exact h.offset
  · rw [haggregator, hqueue]
    simp [Slice.append, h.length]

theorem filled (hn : n ≤ maxQueuedBuckets) (slowSeconds : Rat) :
    Filled n ((World.start slowSeconds).run ((List.range n).flatMap minutely)) := by
  induction n with
  | zero =>
    have hzero : Time.zero < ((0 : Nat) + 1) * minute := by decide
    exact ⟨⟨rfl, rfl, hzero⟩, rfl, rfl⟩
  | succ n ih =>
    rw [range_succ, flatMap_append, run_append]
    simpa using (ih (by omega)).minutely (by omega)

/-- The queue is full, and a bucket closes while the snapshot waits. -/
def overflowing : List Call := (List.range maxQueuedBuckets).flatMap minutely ++ (.snapshot :: minutely maxQueuedBuckets ++ [.ack])

theorem Filled.overflow (h : Filled maxQueuedBuckets w) :
    ∃ a ∈ (w.run (.snapshot :: Nginx.minutely maxQueuedBuckets ++ [.ack])).acks, 720 ∈ a.removed ∧ 720 ∉ a.snapshot := by
  obtain ⟨s, item, hadd, hqueue, -⟩ := h.idle.minutely
  have hfull : maxQueuedBuckets ≤ w.aggregator.queue.items.length := by rw [h.length]
  have hsnapshot : w.aggregator.queue.numbers = List.range' 0 720 := by rw [Slice.numbers, h.offset, h.length, maxQueuedBuckets]
  rw [enqueue, if_pos hfull] at hqueue
  have hafter : (w.run (.snapshot :: Nginx.minutely maxQueuedBuckets)).aggregator.queue = (w.aggregator.queue.drop 1).append item := by
    simp only [run, Nginx.minutely, foldl_cons, foldl_nil, step, moved, hadd]
    exact hqueue
  have hreport : w.aggregator.snapshot.1.length = 720 := (length_map _).trans h.length
  obtain ⟨dropped, htaken⟩ : ∃ dropped, (w.run (.snapshot :: Nginx.minutely maxQueuedBuckets)).taken =
      some ⟨w.aggregator.snapshot.1, List.range' 0 720, dropped⟩ := by
    simp only [run, Nginx.minutely, foldl_cons, foldl_nil, step, moved, hsnapshot]
    exact ⟨_, rfl⟩
  rw [run_append]
  generalize w.run (.snapshot :: Nginx.minutely maxQueuedBuckets) = w₂ at hafter htaken
  have hoffset : w₂.aggregator.queue.offset = 1 := by
    rw [hafter, append_offset, drop_offset, h.offset, h.length]
    rfl
  have hlength : w₂.aggregator.queue.items.length = 720 := by
    rw [hafter, Slice.append, Slice.drop, length_append, length_drop, h.length]
    rfl
  have hack : (w₂.run [.ack]).acks = w₂.acks ++
      [⟨List.range' 0 720, dropped, List.range' 1 720, (w₂.aggregator.ack 720).queue.numbers⟩] := by
    simp only [run, foldl_cons, foldl_nil, step, htaken, hreport, Aggregator.ack, drop_offset, hoffset, hlength, Nat.min_self, Nat.add_sub_cancel_left]
  rw [hack]
  refine ⟨_, mem_append_right _ (mem_singleton_self _), ?_, ?_⟩
  · simp [mem_range'_1]
  · simp [mem_range'_1]

/-- The last bucket was in no snapshot, and is removed. -/
theorem unreported_removed : ∃ a ∈ ((World.start 1).run overflowing).acks, 720 ∈ a.removed ∧ 720 ∉ a.snapshot := by
  rw [overflowing, run_append]
  exact (filled (Nat.le_refl maxQueuedBuckets) 1).overflow

end ControlTower.Nginx
