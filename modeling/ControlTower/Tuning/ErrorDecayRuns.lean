import Mathlib.Tactic.Linarith
import Mathlib.Tactic.Positivity
import ControlTower.Data.Sorting
import ControlTower.Tuning.ErrorDecay

/-! Smoothing does not depend on how often the engine runs.

All that a query returns is a part of the channel's buckets, in their order. An evaluation
folds those of them that have settled and are newer than the cursor, so a run folds the
settled buckets of the period it covers, each once: what settles between two evaluations
is inside the lookback of the second as long as the gap is no longer than the lookback
without the settle time. The limit of the query by channel must not cut, and it does cut
where buckets lie in the future. -/
namespace ControlTower.Tuning.ErrorDecay
open Go Data List RecentChannelBucket ContinuousState Evaluation

/-! ### What the queries return -/

/-- The rows of a channel's bucket. -/
def group (rows : List Metric) (channelId : Int) (moment : Time) : List Metric :=
  rows.filter fun m => m.channelId == channelId && decide (0 < m.requestCount) &&
    m.bucketTime == moment

/-- The buckets of a channel, the oldest first. -/
def allBuckets (rows : List Metric) (channelId : Int) : List RecentChannelBucket :=
  (byTime (rows.filter fun m => m.channelId == channelId && decide (0 < m.requestCount))).reverse

variable {rows : List Metric} {b : RecentChannelBucket}

theorem mem_byTime :
    b ∈ byTime rows ↔ (rows.filter fun m => m.bucketTime == b.bucketTime) ≠ [] ∧
      b = bucketOf b.bucketTime (rows.filter fun m => m.bucketTime == b.bucketTime) := by
  have hne : (rows.filter fun m => m.bucketTime == b.bucketTime) ≠ [] ↔
      ∃ m ∈ rows, m.bucketTime = b.bucketTime := by
    simp [filter_eq_nil_iff]
  simp only [byTime, mem_map, mem_insertionSort, mem_dedup, hne]
  constructor
  · rintro ⟨moment, ⟨m, hm, rfl⟩, rfl⟩
    exact ⟨⟨m, hm, rfl⟩, rfl⟩
  · intro ⟨hm, hb⟩
    exact ⟨b.bucketTime, hm, hb.symm⟩

theorem byTime_sorted (rows : List Metric) :
    (byTime rows).reverse.Pairwise fun a b => a.bucketTime < b.bucketTime := by
  have hsorted := reverse_insertionSort_lt
    (fun t : Time => t) (nodup_dedup (rows.map Metric.bucketTime))
  rw [byTime, ← map_reverse, pairwise_map]
  exact hsorted

theorem allBuckets_sorted (rows : List Metric) (channelId : Int) :
    (allBuckets rows channelId).Pairwise fun a b => a.bucketTime < b.bucketTime := byTime_sorted _

variable {channelId : Int}

theorem mem_allBuckets :
    b ∈ allBuckets rows channelId ↔ group rows channelId b.bucketTime ≠ [] ∧
      b = bucketOf b.bucketTime (group rows channelId b.bucketTime) := by
  have hgroup : (rows.filter fun m => m.channelId == channelId &&
      decide (0 < m.requestCount)).filter (fun m => m.bucketTime == b.bucketTime) =
      group rows channelId b.bucketTime := by
    rw [filter_filter, group]
    exact filter_congr fun m _ => Bool.and_comm _ _
  rw [allBuckets, mem_reverse, mem_byTime, hgroup]

/-- Whatever a query asks of the rows of a bucket, they are the channel's or, before `since`,
none. -/
theorem filter_recent (rows : List Metric) {since moment : Time} {q : Metric → Bool}
    (hq : ∀ m, q m = true ↔ m.channelId = channelId ∧ 0 < m.requestCount ∧ since ≤ m.bucketTime ∧
      m.bucketTime = moment) :
    rows.filter q = if since ≤ moment then group rows channelId moment else [] := by
  by_cases hsince : since ≤ moment
  · rw [if_pos hsince, group]
    apply filter_congr
    intro m _
    rw [Bool.eq_iff_iff, hq]
    simp only [Bool.and_eq_true, beq_iff_eq, decide_eq_true_eq]
    exact ⟨fun h => ⟨⟨h.1, h.2.1⟩, h.2.2.2⟩, fun h => ⟨h.1.1, h.1.2, h.2 ▸ hsince, h.2⟩⟩
  · rw [if_neg hsince, filter_eq_nil_iff]
    intro m _ hm
    obtain ⟨_, _, hle, rfl⟩ := (hq m).mp hm
    exact hsince hle

theorem mem_recent {since : Time} {q : Metric → Bool}
    (hq : ∀ m, q m = true ↔ m.channelId = channelId ∧ 0 < m.requestCount ∧ since ≤ m.bucketTime ∧
      m.bucketTime = b.bucketTime) :
    b ∈ (allBuckets rows channelId).filter (fun b => since ≤ b.bucketTime) ↔ rows.filter q ≠ [] ∧
      b = bucketOf b.bucketTime (rows.filter q) := by
  rw [mem_filter, mem_allBuckets, filter_recent rows hq]
  by_cases hsince : since ≤ b.bucketTime <;> simp [hsince]

theorem query_eq (rows : List Metric) (channelId : Int) (since : Time) (limit : Nat) :
    queryRecentChannelBuckets rows channelId since limit =
      ((allBuckets rows channelId).filter fun b => since ≤ b.bucketTime).reverse.take limit := by
  have hbuckets :
      (byTime (rows.filter fun m => m.channelId == channelId &&
        decide (since ≤ m.bucketTime) && decide (0 < m.requestCount))).reverse =
      (allBuckets rows channelId).filter fun b => since ≤ b.bucketTime := by
    apply eq_of_pairwise_lt bucketTime (byTime_sorted _)
      ((allBuckets_sorted rows channelId).filter _)
    intro b
    rw [mem_reverse, mem_byTime, filter_filter]
    symm
    apply mem_recent
    intro m
    simp only [Bool.and_eq_true, beq_iff_eq, decide_eq_true_eq]
    tauto
  rw [queryRecentChannelBuckets, ← hbuckets, reverse_reverse]

theorem queryBySite_eq (rows : List Metric) (since : Time) (channelId : Int) :
    queryRecentChannelBucketsBySite rows since channelId =
      ((allBuckets rows channelId).filter fun b => since ≤ b.bucketTime).reverse := by
  rw [← reverse_eq_iff, queryRecentChannelBucketsBySite]
  set rows' := rows.filter fun m => decide (since ≤ m.bucketTime) &&
    decide (0 < m.requestCount) with hrows'
  apply eq_of_pairwise_lt bucketTime _ ((allBuckets_sorted rows channelId).filter _)
  · intro b
    have hq : ∀ m : Metric, ((m.channelId == channelId && m.bucketTime == b.bucketTime) &&
        (decide (since ≤ m.bucketTime) && decide (0 < m.requestCount))) = true ↔
        m.channelId = channelId ∧ 0 < m.requestCount ∧ since ≤ m.bucketTime ∧
          m.bucketTime = b.bucketTime := by
      intro m
      simp only [Bool.and_eq_true, beq_iff_eq, decide_eq_true_eq]
      tauto
    rw [mem_recent hq, ← filter_filter, ← hrows']
    simp only [mem_reverse, mem_insertionSort, mem_map, mem_filter, mem_dedup, beq_iff_eq, ne_eq,
      filter_eq_nil_iff, not_forall]
    constructor
    · rintro ⟨_, ⟨⟨_, ⟨m, hm, rfl⟩, rfl⟩, rfl⟩, rfl⟩
      exact ⟨⟨m, hm, by simp [bucketOf]⟩, rfl⟩
    · intro ⟨⟨m, hm, hkey⟩, hb⟩
      simp only [Bool.and_eq_true, beq_iff_eq, not_not] at hkey
      exact ⟨_, ⟨⟨(m.channelId, m.bucketTime), ⟨m, hm, rfl⟩, rfl⟩, hkey.1⟩, by
        rw [hkey.1, hkey.2, ← hb]⟩
  · apply reverse_insertionSort_lt
    rw [pairwise_map]
    refine List.Pairwise.imp_of_mem ?_ ((pairwise_map.mpr ((nodup_dedup _).imp ?_)).filter _)
      (R := fun g h => g.1 = h.1 → g.2.bucketTime ≠ h.2.bucketTime)
    · intro a b ha hb hab
      have hchannels : a.1 = channelId ∧ b.1 = channelId :=
        ⟨by simpa using (mem_filter.mp ha).2, by simpa using (mem_filter.mp hb).2⟩
      exact hab (hchannels.1.trans hchannels.2.symm)
    · exact fun hne hchannel htime => hne (Prod.ext hchannel htime)

/-! ### An evaluation -/

def RecentChannelBucket.errors (b : RecentChannelBucket) : Int :=
  max (b.errorCount - b.userErrorCount) 0

/-- What a folded bucket does to the state. -/
def ContinuousState.add (p : Params) (s : ContinuousState) (b : RecentChannelBucket) :
    ContinuousState :=
  let f := Fold.add p ⟨s.smoothedErrorRate, s.kError, 0, 0, s.lastBucketAt⟩ b
  ⟨f.smoothedErrorRate, f.kError, f.newest⟩

/-- What the fold of some buckets returns. -/
def folded (p : Params) (s : ContinuousState) (bs : List RecentChannelBucket) :
    ContinuousState × Int × Int :=
  (bs.foldl (add p) s, (bs.map requestCount).sum, (bs.map errors).sum)

theorem foldl_add (p : Params) (bs : List RecentChannelBucket) (f : Fold) :
    let f' := bs.foldl (Fold.add p) f
    ((⟨f'.smoothedErrorRate, f'.kError, f'.newest⟩ : ContinuousState), f'.requests,
      f'.channelErrors) =
      (bs.foldl (add p) ⟨f.smoothedErrorRate, f.kError, f.newest⟩,
        f.requests + (bs.map requestCount).sum,
        f.channelErrors + (bs.map errors).sum) := by
  induction bs generalizing f with
  | nil => simp
  | cons b bs ih =>
    have hstate : (⟨(f.add p b).smoothedErrorRate, (f.add p b).kError,
        (f.add p b).newest⟩ : ContinuousState) =
        add p ⟨f.smoothedErrorRate, f.kError, f.newest⟩ b := by
      simp only [add, Fold.add]
      split <;> rfl
    have hsums : (f.add p b).requests = f.requests + b.requestCount ∧
        (f.add p b).channelErrors = f.channelErrors + b.errors := by
      simp only [Fold.add, errors]
      split <;> exact ⟨rfl, rfl⟩
    simp only [foldl_cons, map_cons, sum_cons]
    rw [ih, hstate, hsums.1, hsums.2, add_assoc, add_assoc]

/-- The buckets from one time to another that are newer than a cursor. -/
def period (bs : List RecentChannelBucket) (cursor : Option Time) (from_ settled : Time) :
    List RecentChannelBucket :=
  bs.filter fun b => decide (from_ ≤ b.bucketTime) && decide (b.bucketTime ≤ settled) &&
    after cursor b.bucketTime

/-- The limit of the query leaves out nothing that is newer than the cursor. -/
def Uncut (p : Params) (rows : List Metric) (channelId : Int) (s : ContinuousState)
    (e : Evaluation) : Prop :=
  e.bySite = false → ((allBuckets rows channelId).filter fun b =>
    decide (e.now - p.lookback ≤ b.bucketTime) && after s.lastBucketAt b.bucketTime).length ≤
      p.errorLookbackMinutes + 1

theorem migrate_lastBucketAt (p : Params) (s : ContinuousState) :
    (migrate p s).lastBucketAt = s.lastBucketAt := by
  rw [migrate]
  split <;> rfl

theorem sinceOf_migrate (p : Params) (s : ContinuousState) (now : Time) :
    sinceOf p (migrate p s) now = sinceOf p s now := by
  rw [sinceOf, sinceOf, migrate_lastBucketAt]

theorem foldBuckets_eq (p : Params) (s : ContinuousState) (settled : Time)
    (buckets : List RecentChannelBucket) :
    foldBuckets p s settled buckets =
      (buckets.reverse.filter fun b => decide (b.bucketTime ≤ settled) &&
        after s.lastBucketAt b.bucketTime).foldl (Fold.add p)
        ⟨s.smoothedErrorRate, s.kError, 0, 0, s.lastBucketAt⟩ := by
  rw [foldBuckets, foldl_filter]
  congr 1
  funext f b
  by_cases hle : b.bucketTime ≤ settled
  · rw [if_neg (not_lt.mpr hle)]
    cases after s.lastBucketAt b.bucketTime <;> simp [hle]
  · rw [if_pos (not_le.mp hle)]
    simp [hle]

/-- The start of a query by channel only leaves out what is not newer than the cursor. -/
theorem since_after (p : Params) (s : ContinuousState) (now t : Time)
    (hafter : after s.lastBucketAt t = true) : sinceOf p s now ≤ t ↔ now - p.lookback ≤ t := by
  rw [sinceOf]
  cases hlast : s.lastBucketAt with
  | none => exact Iff.rfl
  | some moment =>
    rw [after, hlast] at hafter
    have hlt : moment < t := by simpa using hafter
    show (if now - p.lookback < moment then moment else now - p.lookback) ≤ t ↔ _
    split
    · exact ⟨fun _ => by simp only [Time] at *; omega, fun _ => le_of_lt hlt⟩
    · exact Iff.rfl

theorem after_mono {cursor : Option Time} {t t' : Time} (h : after cursor t = true) (hle : t ≤ t') :
    after cursor t' = true := by
  cases cursor with
  | none => rfl
  | some moment => simpa [after] using lt_of_lt_of_le (by simpa [after] using h) hle

/-- What a query by channel returns of the buckets that are newer than the cursor. -/
theorem query_after {p : Params} {rows : List Metric} {channelId : Int} {s : ContinuousState}
    {e : Evaluation}
    (hsite : e.bySite = false) (huncut : Uncut p rows channelId s e) :
    (queryRecentChannelBuckets rows channelId (sinceOf p s e.now)
      (p.errorLookbackMinutes + 1)).filter
        (fun b => after s.lastBucketAt b.bucketTime) =
      (((allBuckets rows channelId).filter fun b =>
        sinceOf p s e.now ≤ b.bucketTime).reverse).filter
        fun b => after s.lastBucketAt b.bucketTime := by
  rw [query_eq]
  refine filter_take ?_ ?_
  · rw [pairwise_reverse]
    exact ((allBuckets_sorted rows channelId).filter _).imp fun hlt h => after_mono h (le_of_lt hlt)
  · rw [filter_reverse, length_reverse, filter_filter]
    refine le_of_eq_of_le (congrArg List.length (filter_congr fun b _ => ?_)) (huncut hsite)
    cases hafter : after s.lastBucketAt b.bucketTime with
    | false => simp
    | true => simp [since_after p s e.now b.bucketTime hafter]

/-- **An evaluation** folds the buckets of the lookback that have settled and are newer than
the cursor, whichever query they come from. -/
theorem foldErrorDecay_eq (p : Params) (rows : List Metric) (channelId : Int) (s : ContinuousState)
    (e : Evaluation) (huncut : Uncut p rows channelId s e) :
    foldErrorDecayWithBuckets p rows channelId s e =
      folded p (migrate p s) (period (allBuckets rows channelId) s.lastBucketAt (e.now - p.lookback)
        (e.now - p.settle)) := by
  have hquery : ∃ since, (∀ t, after s.lastBucketAt t = true →
      (since ≤ t ↔ e.now - p.lookback ≤ t)) ∧
      (if e.bySite then queryRecentChannelBucketsBySite rows (e.now - p.lookback) channelId
        else queryRecentChannelBuckets rows channelId (sinceOf p (migrate p s) e.now)
          (p.errorLookbackMinutes + 1)).filter
          (fun b => after s.lastBucketAt b.bucketTime) =
      ((allBuckets rows channelId).filter fun b => since ≤ b.bucketTime).reverse.filter
          fun b => after s.lastBucketAt b.bucketTime := by
    cases hsite : e.bySite with
    | true => exact ⟨e.now - p.lookback, fun _ _ => Iff.rfl, congrArg _ (queryBySite_eq _ _ _)⟩
    | false =>
      refine ⟨sinceOf p s e.now, since_after p s e.now, ?_⟩
      rw [if_neg Bool.false_ne_true, sinceOf_migrate]
      exact query_after hsite huncut
  simp only [foldErrorDecayWithBuckets, foldBuckets_eq]
  generalize (if e.bySite then _ else _ : List RecentChannelBucket) = buckets at hquery ⊢
  obtain ⟨since, hsince, hbuckets⟩ := hquery
  have hdue : (buckets.reverse.filter fun b =>
      decide (b.bucketTime ≤ e.now - p.settle) && after (migrate p s).lastBucketAt b.bucketTime) =
      period (allBuckets rows channelId) s.lastBucketAt (e.now - p.lookback)
        (e.now - p.settle) := by
    rw [migrate_lastBucketAt, ← filter_filter, filter_reverse, hbuckets]
    simp only [filter_reverse, reverse_reverse, filter_filter, period]
    apply filter_congr
    intro b _
    cases hafter : after s.lastBucketAt b.bucketTime with
    | false => simp
    | true => simp [hsince _ hafter, Bool.and_comm]
  rw [hdue]
  have hfold := foldl_add p (period (allBuckets rows channelId) s.lastBucketAt (e.now - p.lookback)
    (e.now - p.settle))
    ⟨(migrate p s).smoothedErrorRate, (migrate p s).kError, 0, 0, (migrate p s).lastBucketAt⟩
  simp only [zero_add] at hfold
  exact hfold

/-! ### States that are migrated already -/

/-- Nothing is left to migrate. -/
def Modern (s : ContinuousState) : Prop := ¬(s.smoothedErrorRate = 0 ∧ 0 < s.kError ∧ s.kError < 1)

variable {p : Params} {s : ContinuousState}

theorem migrate_of_modern (h : Modern s) : migrate p s = s := if_neg h

theorem legacyErrorRate_pos (hp : p.Valid) {factor : ℚ} (h : factor < 1) :
    0 < legacyErrorRateWithPolicy factor p := by
  obtain ⟨hhealthy, hdegraded, hpoor, hfloor, _⟩ := hp.rates
  obtain ⟨_, hmin, hpf, hdf⟩ := hp.factors
  rw [legacyErrorRateWithPolicy, if_neg (not_le.mpr h)]
  split
  · have : 0 < (1 - factor) / (1 - p.errorDegradedFactor) *
        (p.errorDegradedRate - p.errorHealthyRate) :=
      mul_pos (div_pos (by linarith) (by linarith)) (by linarith)
    linarith
  · rename_i hd
    split
    · have : 0 < (p.errorDegradedFactor - factor) / (p.errorDegradedFactor - p.errorPoorFactor) *
          (p.errorPoorRate - p.errorDegradedRate) :=
        mul_pos (div_pos (by linarith) (by linarith)) (by linarith)
      linarith
    · rename_i hpo
      split
      · have : 0 < (p.errorPoorFactor - factor) / (p.errorPoorFactor - p.errorMinFactor) *
            (p.errorFloorRate - p.errorPoorRate) :=
          mul_pos (div_pos (by linarith) (by linarith)) (by linarith)
        linarith
      · linarith

theorem modern_migrate (hp : p.Valid) (s : ContinuousState) : Modern (migrate p s) := by
  rw [migrate]
  split
  · rename_i hlegacy
    intro hmodern
    exact absurd hmodern.1 (ne_of_gt (legacyErrorRate_pos hp hlegacy.2.2))
  · rename_i hmodern
    exact hmodern

/-- A rate of zero has the factor one, so a folded bucket never leaves something to migrate. -/
theorem modern_add (hp : p.Valid) (hs : Modern s) (b : RecentChannelBucket) :
    Modern (s.add p b) := by
  simp only [add, Fold.add]
  split
  · intro hlegacy
    simp only at hlegacy
    rw [hlegacy.1, reliabilityFactorWithPolicy, if_pos hp.rates.1] at hlegacy
    exact lt_irrefl _ hlegacy.2.2
  · exact hs

theorem modern_foldl (hp : p.Valid) (bs : List RecentChannelBucket) (hs : Modern s) :
    Modern (bs.foldl (add p) s) := by
  induction bs generalizing s with
  | nil => exact hs
  | cons b bs ih => exact ih (modern_add hp hs b)

/-! ### The cursor -/

theorem add_lastBucketAt (p : Params) (s : ContinuousState) (b : RecentChannelBucket) :
    (s.add p b).lastBucketAt = if after s.lastBucketAt b.bucketTime then some b.bucketTime
      else s.lastBucketAt := by
  simp only [add, Fold.add]
  split <;> rfl

/-- To be newer than the cursor is to be newer than the old one and than all that was folded. -/
theorem after_foldl (p : Params) (bs : List RecentChannelBucket) (s : ContinuousState) (t : Time) :
    after (bs.foldl (add p) s).lastBucketAt t = true ↔ after s.lastBucketAt t = true ∧
      ∀ b ∈ bs, b.bucketTime < t := by
  induction bs generalizing s with
  | nil => simp
  | cons b bs ih =>
    have hadd : after (s.add p b).lastBucketAt t = true ↔ after s.lastBucketAt t = true ∧
        b.bucketTime < t := by
      rw [add_lastBucketAt]
      cases hlast : s.lastBucketAt with
      | none => simp [after]
      | some moment =>
        by_cases hlt : moment < b.bucketTime
        · simp only [after, Option.all_some, hlt, decide_true, if_true, decide_eq_true_eq]
          exact ⟨fun h => ⟨lt_trans hlt h, h⟩, fun h => h.2⟩
        · simp only [after, Option.all_some, hlt, decide_false, Bool.false_eq_true, if_false,
            decide_eq_true_eq]
          exact ⟨fun h => ⟨h, lt_of_le_of_lt (not_lt.mp hlt) h⟩, fun h => h.1⟩
    rw [foldl_cons, ih, hadd, and_assoc, forall_mem_cons]

/-! ### Runs -/

section Runs
variable {p : Params} {rows : Time → List Metric} {channelId : Int}

/-- Buckets never change once they have settled. -/
def Settles (p : Params) (rows : Time → List Metric) (channelId : Int) : Prop :=
  ∀ t t', t ≤ t' → ((allBuckets (rows t) channelId).filter fun b => b.bucketTime ≤ t - p.settle) =
    (allBuckets (rows t') channelId).filter fun b => b.bucketTime ≤ t - p.settle

/-- Evaluations at increasing times, close enough to each other. -/
def Spaced (p : Params) (evs : List Evaluation) : Prop :=
  evs.IsChain fun a b => a.now < b.now ∧ b.now - a.now ≤ p.lookback - p.settle

/-- No query of a run is cut by its limit. -/
def UncutRun (p : Params) (rows : Time → List Metric) (channelId : Int) :
    ContinuousState → List Evaluation → Prop
  | _, [] => True
  | s, e :: rest => Uncut p (rows e.now) channelId s e ∧
      UncutRun p rows channelId (foldErrorDecayWithBuckets p (rows e.now) channelId s e).1 rest

/-- What a run from one time to another has to fold. -/
def covered (p : Params) (rows : Time → List Metric) (channelId : Int) (s : ContinuousState)
    (first last : Time) : List RecentChannelBucket :=
  period (allBuckets (rows last) channelId) s.lastBucketAt (first - p.lookback) (last - p.settle)

theorem mem_covered {s : ContinuousState} {first last : Time} {b : RecentChannelBucket} :
    b ∈ covered p rows channelId s first last ↔ b ∈ allBuckets (rows last) channelId ∧
      first - p.lookback ≤ b.bucketTime ∧ b.bucketTime ≤ last - p.settle ∧
      after s.lastBucketAt b.bucketTime = true := by
  simp only [covered, period, mem_filter, Bool.and_eq_true, decide_eq_true_eq, and_assoc]

/-- A later evaluation has to fold what settled since, after all that was folded before. -/
theorem covered_next (hsettles : Settles p rows channelId) (s : ContinuousState) (first : Time)
    {t t' : Time} (hle : t ≤ t') :
    covered p rows channelId s first t' = covered p rows channelId s first t ++
      (covered p rows channelId s first t').filter fun b => t - p.settle < b.bucketTime := by
  have hsorted : (covered p rows channelId s first t').Pairwise fun a b =>
      a.bucketTime ≤ b.bucketTime :=
    ((allBuckets_sorted (rows t') channelId).imp fun hlt => le_of_lt hlt).filter _
  have hsplit := filter_le_append_filter_lt bucketTime hsorted (t - p.settle)
  have hold : ((covered p rows channelId s first t').filter fun b => b.bucketTime ≤ t - p.settle) =
      covered p rows channelId s first t := by
    have hsame : ∀ r : Time, t ≤ r →
        ((covered p rows channelId s first r).filter fun b => b.bucketTime ≤ t - p.settle) =
        ((allBuckets (rows r) channelId).filter fun b => b.bucketTime ≤ t -
          p.settle).filter fun b => decide (first - p.lookback ≤ b.bucketTime) &&
            after s.lastBucketAt b.bucketTime := by
      intro r hr
      rw [covered, period, filter_filter, filter_filter]
      apply filter_congr
      intro b _
      rw [Bool.eq_iff_iff]
      simp only [Bool.and_eq_true, decide_eq_true_eq, Time] at *
      constructor
      · intro ⟨hb, ⟨hfirst, _⟩, hafter⟩
        exact ⟨⟨hfirst, hafter⟩, hb⟩
      · intro ⟨⟨hfirst, hafter⟩, hb⟩
        exact ⟨hb, ⟨hfirst, by omega⟩, hafter⟩
    rw [hsame t' hle, ← hsettles t t' hle, ← hsame t (le_refl t), filter_eq_self]
    intro b hb
    simpa using (mem_covered.mp hb).2.2.1
  rw [hold] at hsplit
  exact hsplit.symm

/-- What is due at an evaluation is what settled since the last one. -/
theorem due_next (hsettles : Settles p rows channelId) (s : ContinuousState) {first t t' : Time}
    (hfirst : first ≤ t) (hle : t ≤ t') (hgap : t' - t ≤ p.lookback - p.settle) :
    period (allBuckets (rows t') channelId) ((covered p rows channelId s first t).foldl (add p)
      (migrate p s)).lastBucketAt (t' - p.lookback) (t' - p.settle) =
      (covered p rows channelId s first t').filter fun b => t - p.settle < b.bucketTime := by
  rw [period, show covered p rows channelId s first t' =
    (allBuckets (rows t') channelId).filter _ from rfl, filter_filter]
  apply filter_congr
  intro b hb
  rw [Bool.eq_iff_iff]
  simp only [Bool.and_eq_true, decide_eq_true_eq, after_foldl, migrate_lastBucketAt]
  constructor
  · intro ⟨⟨hfrom, hsettled⟩, hafter, hnewer⟩
    -- a bucket that had settled already was folded, so it is not newer than the cursor
    have hfresh : t - p.settle < b.bucketTime := by
      by_contra hold
      have hmem : b ∈ (allBuckets (rows t) channelId).filter fun b => b.bucketTime ≤ t -
          p.settle := by
        rw [hsettles t t' hle]
        exact mem_filter.mpr ⟨hb, by simpa using hold⟩
      have hcovered : b ∈ covered p rows channelId s first t :=
        mem_covered.mpr ⟨(mem_filter.mp hmem).1, by simp only [Time] at *; omega,
          not_lt.mp hold, hafter⟩
      exact lt_irrefl _ (hnewer b hcovered)
    exact ⟨hfresh, ⟨by simp only [Time] at *; omega, hsettled⟩, hafter⟩
  · intro ⟨hfresh, ⟨_, hsettled⟩, hafter⟩
    refine ⟨⟨by simp only [Time] at *; omega, hsettled⟩, hafter, ?_⟩
    intro c hc
    exact lt_of_le_of_lt (mem_covered.mp hc).2.2.1 hfresh

theorem folded_append (s : ContinuousState) (bs cs : List RecentChannelBucket) :
    folded p s (bs ++ cs) = ((folded p (folded p s bs).1 cs).1,
      (folded p s bs).2.1 + (folded p (folded p s bs).1 cs).2.1,
        (folded p s bs).2.2 + (folded p (folded p s bs).1 cs).2.2) := by
  simp [folded]

/-- A run, from a state that earlier evaluations have left. -/
theorem run_from (hp : p.Valid) (hsettles : Settles p rows channelId) (s : ContinuousState)
    (first : Time) (rest : List Evaluation) (last : Evaluation) (hfirst : first ≤ last.now)
    (hspaced : Spaced p (last :: rest))
    (huncut : UncutRun p rows channelId
      (folded p (migrate p s) (covered p rows channelId s first last.now)).1 rest) :
    let before := folded p (migrate p s) (covered p rows channelId s first last.now)
    let after_ := run p rows channelId before.1 rest
    folded p (migrate p s) (covered p rows channelId s first ((rest.map now).getLastD last.now)) =
      (after_.1, before.2.1 + after_.2.1, before.2.2 + after_.2.2) := by
  induction rest generalizing last with
  | nil => simp [run]
  | cons e rest ih =>
    obtain ⟨⟨hlt, hgap⟩, hspaced'⟩ := isChain_cons_cons.mp hspaced
    obtain ⟨hcut, huncut'⟩ := huncut
    have hmodern : Modern (folded p (migrate p s) (covered p rows channelId s first last.now)).1 :=
      modern_foldl hp _ (modern_migrate hp s)
    have hstep := foldErrorDecay_eq p (rows e.now) channelId _ e hcut
    rw [migrate_of_modern hmodern] at hstep
    have hdue := due_next hsettles s hfirst (le_of_lt hlt) hgap
    rw [show (folded p (migrate p s) (covered p rows channelId s first last.now)).1.lastBucketAt =
      ((covered p rows channelId s first last.now).foldl (add p)
        (migrate p s)).lastBucketAt from rfl, hdue] at hstep
    have hnext := folded_append (p := p) (migrate p s) (covered p rows channelId s first last.now)
      ((covered p rows channelId s first e.now).filter fun b => last.now - p.settle < b.bucketTime)
    rw [← covered_next hsettles s first (le_of_lt hlt), ← hstep] at hnext
    have hstate := congrArg Prod.fst hnext
    have hrest := ih e (le_trans hfirst (le_of_lt hlt)) hspaced' (by rw [hstate]; exact huncut')
    rw [map_cons, getLastD_cons]
    refine hrest.trans ?_
    rw [hnext]
    simp only [run]
    ext <;> simp [add_assoc]

/-- **A run** folds the buckets of its period, each once and the oldest first. -/
theorem run_covered (hp : p.Valid) (hsettles : Settles p rows channelId) (s : ContinuousState)
    (e : Evaluation) (rest : List Evaluation) (hspaced : Spaced p (e :: rest))
    (huncut : UncutRun p rows channelId s (e :: rest)) :
    run p rows channelId s (e :: rest) = folded p (migrate p s)
      (covered p rows channelId s e.now ((rest.map now).getLastD e.now)) := by
  obtain ⟨hcut, huncut'⟩ := huncut
  have hstep := foldErrorDecay_eq p (rows e.now) channelId s e hcut
  rw [hstep] at huncut'
  have hrest := run_from hp hsettles s e.now rest e (le_refl _) hspaced huncut'
  refine Eq.trans ?_ hrest.symm
  simp only [run, hstep, covered]

/-- How many whole minutes there are between two times. -/
theorem length_le_minutes {m : Int} (bs : List RecentChannelBucket)
    (hsorted : bs.Pairwise fun a b => a.bucketTime < b.bucketTime) (low : Time) {high : Time}
    (hroom : low ≤ high + m) (hbs : ∀ b ∈ bs, m ∣ b.bucketTime ∧ low ≤ b.bucketTime ∧
      b.bucketTime ≤ high) : bs.length * m ≤ high - low + m := by
  induction bs generalizing low with
  | nil =>
    simp only [length_nil, Nat.cast_zero, Time] at *
    omega
  | cons a bs ih =>
    obtain ⟨hhead, htail⟩ := pairwise_cons.mp hsorted
    obtain ⟨hdvd, hlow, hhigh⟩ := hbs a mem_cons_self
    have hrest := ih htail (a.bucketTime + m) (by simp only [Time] at *; omega) (by
      intro b hb
      obtain ⟨hdvd', _, hhigh'⟩ := hbs b (mem_cons_of_mem _ hb)
      have hstep : m ≤ b.bucketTime - a.bucketTime := Int.le_of_dvd (Int.sub_pos.mpr (hhead b hb))
        (Int.dvd_sub hdvd' hdvd)
      exact ⟨hdvd', by simp only [Time] at *; omega, hhigh'⟩)
    rw [length_cons, Nat.cast_succ, Int.add_mul]
    simp only [Time] at *
    omega

/-- Without buckets in the future the limit is enough for the minutes of the lookback. -/
theorem uncut_of_past {rows : List Metric} (s : ContinuousState) (e : Evaluation)
    (hpast : ∀ b ∈ allBuckets rows channelId, minutes 1 ∣ b.bucketTime ∧ b.bucketTime ≤ e.now) :
      Uncut p rows channelId s e := by
  intro _
  have hroom : e.now - p.lookback ≤ e.now + minutes 1 := by
    simp only [Params.lookback, minutes, Time] at *
    omega
  have hcount := length_le_minutes _ ((allBuckets_sorted rows channelId).filter fun b =>
    decide (e.now - p.lookback ≤ b.bucketTime) && after s.lastBucketAt b.bucketTime) _ hroom (by
    intro b hb
    obtain ⟨hmem, hb⟩ := mem_filter.mp hb
    exact ⟨(hpast b hmem).1, by simpa using (Bool.and_eq_true_iff.mp hb).1, (hpast b hmem).2⟩)
  generalize ((allBuckets rows channelId).filter _).length = n at hcount ⊢
  simp only [Params.lookback, minutes, Time] at hcount
  omega

theorem getLast_now (e : Evaluation) (rest : List Evaluation) :
    (e :: rest).getLast?.map now = some ((rest.map now).getLastD e.now) := by
  induction rest generalizing e with
  | nil => rfl
  | cons e' rest ih => rw [List.getLast?_cons_cons, ih, map_cons, getLastD_cons]

end Runs

/-- Smoothing does not depend on the evaluations. Of two runs with one first and one last
time both end in the same state and have folded as many requests and errors: each has
folded the settled buckets of the period, each once and the oldest first. -/
theorem smoothing_independent (p : Params) (hp : p.Valid) (rows : Time → List Metric)
    (channelId : Int) (hsettles : Settles p rows channelId) (s : ContinuousState)
    (evs evs' : List Evaluation) (hspaced : Spaced p evs) (hspaced' : Spaced p evs')
    (hfirst : evs.head?.map now = evs'.head?.map now)
    (hlast : evs.getLast?.map now = evs'.getLast?.map now)
    (huncut : UncutRun p rows channelId s evs) (huncut' : UncutRun p rows channelId s evs') :
    run p rows channelId s evs = run p rows channelId s evs' ∧
    ∀ first last, evs.head?.map now = some first → evs.getLast?.map now = some last →
      run p rows channelId s evs = folded p (migrate p s)
        (covered p rows channelId s first last) := by
  cases evs with
  | nil =>
    cases evs' with
    | nil => exact ⟨rfl, fun _ _ hnone => by cases hnone⟩
    | cons e' rest' => cases hfirst
  | cons e rest =>
    cases evs' with
    | nil => cases hfirst
    | cons e' rest' =>
      have hrun := run_covered hp hsettles s e rest hspaced huncut
      have hrun' := run_covered hp hsettles s e' rest' hspaced' huncut'
      have hfirst' : e.now = e'.now := Option.some.inj hfirst
      rw [getLast_now, getLast_now] at hlast
      constructor
      · rw [hrun, hrun', Option.some.inj hlast, hfirst']
      · intro first last hf hl
        rw [getLast_now] at hl
        rw [hrun, Option.some.inj hl, Option.some.inj hf]

/-! ### A lookback of two minutes -/

def shortLookback : Params :=
  ⟨3 / 10, 0, 2, 1 / 100, 5 / 100, 15 / 100, 30 / 100, 85 / 100, 50 / 100, 20 / 100⟩

theorem shortLookback_valid : shortLookback.Valid where
  alpha := by decide +kernel
  settle := by decide
  lookback := by decide
  rates := by decide +kernel
  factors := by decide +kernel

/-- A request that failed, in every minute of the list. -/
def failures (ms : List Nat) : List Metric := ms.map fun n => ⟨7, minutes n, 1, 1, 0⟩

theorem smoothing_independent_past :
    run shortLookback (fun _ => failures [9, 10]) 7 ⟨0, 1, none⟩ [⟨minutes 10, false⟩,
      ⟨minutes 11, true⟩, ⟨minutes 12, false⟩] =
      run shortLookback (fun _ => failures [9, 10]) 7 ⟨0, 1, none⟩ [⟨minutes 10, true⟩,
        ⟨minutes 12, false⟩] := by
  have hpast : ∀ s (e : Evaluation), minutes 10 ≤ e.now →
      Uncut shortLookback (failures [9, 10]) 7 s e := by
    intro s e he
    have hbuckets : ∀ b ∈ allBuckets (failures [9, 10]) 7, minutes 1 ∣ b.bucketTime ∧
        b.bucketTime ≤ minutes 10 := by decide
    exact uncut_of_past s e fun b hb => ⟨(hbuckets b hb).1, le_trans (hbuckets b hb).2 he⟩
  refine (smoothing_independent shortLookback shortLookback_valid (fun _ => failures [9, 10]) 7
    (fun _ _ _ => rfl) ⟨0, 1, none⟩
    [⟨minutes 10, false⟩, ⟨minutes 11, true⟩, ⟨minutes 12, false⟩] [⟨minutes 10, true⟩,
      ⟨minutes 12, false⟩] ?_ ?_ rfl rfl ?_ ?_).1
  · exact isChain_cons_cons.mpr ⟨by decide, isChain_cons_cons.mpr ⟨by decide, isChain_singleton _⟩⟩
  · exact isChain_cons_cons.mpr ⟨by decide, isChain_singleton _⟩
  · exact ⟨hpast _ _ (by decide), hpast _ _ (by decide), hpast _ _ (by decide), trivial⟩
  · exact ⟨hpast _ _ (by decide), hpast _ _ (by decide), trivial⟩

/-- Minutes nine and ten, and two buckets ahead of the clock; a minute has its bucket when it is
over. -/
def ahead (now : Time) : List Metric :=
  if now < minutes 9 then failures [11, 12] else if now < minutes 10 then failures [9, 11, 12]
    else failures [9, 10, 11, 12]

theorem ahead_settles : Settles shortLookback ahead 7 := by
  have hbuckets : ∀ ms ∈ [[11, 12], [9, 11, 12], [9, 10, 11, 12]],
      allBuckets (failures ms) 7 = ms.map fun n => ⟨minutes n, 1, 1, 0⟩ := by decide
  -- what is over at a time is there from then on
  have hover : ∀ t r : Time, t ≤ r → ((allBuckets (ahead r) 7).filter fun b => b.bucketTime ≤ t) =
      (allBuckets (failures [9, 10, 11, 12]) 7).filter fun b => b.bucketTime ≤ t := by
    intro t r hle
    simp only [ahead]
    split
    · have hnone : ¬minutes 9 ≤ t ∧ ¬minutes 10 ≤ t := by simp only [minutes, Time] at *; omega
      rw [hbuckets _ (by decide), hbuckets _ (by decide)]
      simp [hnone]
    · split
      · have hnone : ¬minutes 10 ≤ t := by simp only [minutes, Time] at *; omega
        rw [hbuckets _ (by decide), hbuckets _ (by decide)]
        simp [filter_cons, hnone]
      · rfl
  intro t t' hle
  rw [show t - shortLookback.settle = t from sub_zero t, hover t t (le_refl t), hover t t' hle]

/-- The limit of three buckets leaves out minute nine unless it is folded by itself. -/
theorem smoothing_depends :
    shortLookback.Valid ∧ Settles shortLookback ahead 7 ∧
      Spaced shortLookback [⟨minutes 8, false⟩, ⟨minutes 9, false⟩, ⟨minutes 10, false⟩] ∧
    Spaced shortLookback [⟨minutes 8, false⟩, ⟨minutes 10, false⟩] ∧
    run shortLookback ahead 7 ⟨0, 1, none⟩ [⟨minutes 8, false⟩, ⟨minutes 9, false⟩,
      ⟨minutes 10, false⟩] = (⟨51 / 100, 1 / 5, some (minutes 10)⟩, 2, 2) ∧
    run shortLookback ahead 7 ⟨0, 1, none⟩ [⟨minutes 8, false⟩, ⟨minutes 10, false⟩] =
      (⟨3 / 10, 1 / 5, some (minutes 10)⟩, 1, 1) := by
  refine ⟨shortLookback_valid, ahead_settles, ?_, ?_, by decide +kernel, by decide +kernel⟩
  · exact isChain_cons_cons.mpr ⟨by decide, isChain_cons_cons.mpr ⟨by decide, isChain_singleton _⟩⟩
  · exact isChain_cons_cons.mpr ⟨by decide, isChain_singleton _⟩

end ControlTower.Tuning.ErrorDecay
