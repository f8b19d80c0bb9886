import Mathlib.Algebra.Order.Field.Basic
import Mathlib.Data.List.TakeWhile
import Mathlib.Data.Rat.Floor
import Mathlib.Tactic.Linarith
import ControlTower.Data.Histogram

/-! Latency histograms (`latencyhist`).

A duration is counted in the bucket of the first bound that it does not exceed, in one
of two layouts; histograms of one layout are added bucket by bucket, and one of the
finer layout can be read as one of the coarser. A quantile is taken by linear
interpolation inside the bucket in which the counts reach its rank. Seconds are exact
here, and counts are not bounded. -/
namespace ControlTower.Latency
open Data List

/-! ### The layouts -/

def upperBounds : List ℚ := [1 / 4, 1 / 2, 1, 2, 3, 5, 10, 30, 60, 120]

def upperBoundsV2 : List ℚ := [1 / 4, 1 / 2, 1, 2, 3, 5, 8, 10, 12, 20, 30, 45, 60, 90, 120]

/-- One count for each bound. -/
abbrev Counts (bounds : List ℚ) := {counts : List Int // counts.length = bounds.length}

abbrev Buckets := Counts upperBounds

abbrev BucketsV2 := Counts upperBoundsV2

/-- The loop of `Index` and `IndexV2`, which leaves the last bound out. -/
def indexIn : List ℚ → ℚ → Nat
  | bound :: next :: bounds, seconds => if seconds ≤ bound then 0 else indexIn (next :: bounds) seconds + 1
  | _, _ => 0

def index (seconds : ℚ) : Nat := indexIn upperBounds seconds

def indexV2 (seconds : ℚ) : Nat := indexIn upperBoundsV2 seconds

def Counts.zero (bounds : List ℚ) : Counts bounds := ⟨List.replicate bounds.length 0, by simp⟩

/-- One more in the bucket of an index. -/
def Counts.increment {bounds : List ℚ} (counts : Counts bounds) (i : Nat) : Counts bounds :=
  ⟨counts.1.modify i (· + 1), by rw [length_modify, counts.2]⟩

def Counts.add {bounds : List ℚ} (left right : Counts bounds) : Counts bounds :=
  ⟨List.zipWith (· + ·) left.1 right.1, by simp [left.2, right.2]⟩

def add : Buckets → Buckets → Buckets := Counts.add

def addV2 : BucketsV2 → BucketsV2 → BucketsV2 := Counts.add

/-- The loops of `DeriveV1`: every bound takes the finer counts up to it. -/
def coarsen : List ℚ → List ℚ → List Int → List Int
  | [], _, _ => []
  | bound :: bounds, fine, counts =>
    let taken := (fine.takeWhile (· ≤ bound)).length
    (counts.take taken).sum :: coarsen bounds (fine.drop taken) (counts.drop taken)

theorem length_coarsen (bounds fine : List ℚ) (counts : List Int) : (coarsen bounds fine counts).length = bounds.length := by
  induction bounds generalizing fine counts with
  | nil => rfl
  | cons bound bounds ih => exact congrArg Nat.succ (ih _ _)

def deriveV1 (v2 : BucketsV2) : Buckets := ⟨coarsen upperBounds upperBoundsV2 v2.1, length_coarsen _ _ _⟩

/-! ### Quantiles -/

/-- The loop of `interpolate`, at a bucket that begins at `lower` with `previous` values
before it. -/
def interpolateFrom (target : ℚ) : ℚ → Int → List Int → List ℚ → Option ℚ
  | lower, previous, count :: counts, bound :: bounds =>
    if target ≤ ((previous + count : Int) : ℚ) then
      let fraction := if 0 < count then (target - previous) / count else 1
      some (lower + max 0 (min 1 fraction) * (bound - lower))
    else interpolateFrom target bound (previous + count) counts bounds
  | _, _, _, _ => none

def interpolate (counts : List Int) (bounds : List ℚ) (quantile : ℚ) : Option ℚ :=
  let total := counts.sum
  if total = 0 then none else
  let quantile := if quantile ≤ 0 then 0 else quantile
  let quantile := if 1 < quantile then 1 else quantile
  let target := total * quantile
  let target := if target ≤ 0 then 1 else target
  some ((interpolateFrom target 0 0 counts bounds).getD (bounds.getLast?.getD 0))

def quantile (buckets : Buckets) (quantile : ℚ) : Option ℚ := interpolate buckets.1 upperBounds quantile

def quantileV2 (buckets : BucketsV2) (quantile : ℚ) : Option ℚ := interpolate buckets.1 upperBoundsV2 quantile

/-! ### Parts -/

/-- Durations that are histogrammed in parts, and the order in which the parts are merged. -/
inductive Parts where
  | observed (durations : List ℚ)
  | merged (left right : Parts)

def Parts.durations : Parts → List ℚ
  | .observed durations => durations
  | .merged left right => left.durations ++ right.durations

def Parts.buckets : Parts → Buckets
  | .observed durations => durations.foldl (fun buckets seconds => buckets.increment (index seconds)) (.zero upperBounds)
  | .merged left right => add left.buckets right.buckets

def Parts.bucketsV2 : Parts → BucketsV2
  | .observed durations => durations.foldl (fun buckets seconds => buckets.increment (indexV2 seconds)) (.zero upperBoundsV2)
  | .merged left right => addV2 left.bucketsV2 right.bucketsV2

/-- The histogram in any layout. -/
def Parts.counts (bounds : List ℚ) : Parts → Counts bounds
  | .observed durations => durations.foldl (fun counts seconds => counts.increment (indexIn bounds seconds)) (.zero bounds)
  | .merged left right => (left.counts bounds).add (right.counts bounds)

theorem Parts.counts_upperBounds (parts : Parts) : parts.counts upperBounds = parts.buckets := by
  induction parts with
  | observed durations => rfl
  | merged left right ihl ihr => rw [counts, ihl, ihr, buckets, add]

theorem Parts.counts_upperBoundsV2 (parts : Parts) : parts.counts upperBoundsV2 = parts.bucketsV2 := by
  induction parts with
  | observed durations => rfl
  | merged left right ihl ihr => rw [counts, ihl, ihr, bucketsV2, addV2]

/-- The bucket of a bound: above the bound before it, the first one from zero on. -/
def InBucket (bounds : List ℚ) (j : Nat) (x : ℚ) : Prop :=
  j < bounds.length ∧ (if j = 0 then 0 ≤ x else bounds.getD (j - 1) 0 < x) ∧ x ≤ bounds.getD j 0

/-! ### What is counted -/

section Counting
variable {values : List ℚ} {before : Int} {counts : List Int} {bounds : List ℚ}

theorem Cumulative.observe {value : ℚ} (h : Cumulative values before counts bounds) (hsorted : bounds.Pairwise (· < ·))
    (hlast : ∀ last ∈ bounds.getLast?, value ≤ last) :
    Cumulative (value :: values) before (counts.modify (indexIn bounds value) (· + 1)) bounds := by
  induction bounds generalizing before counts with
  | nil =>
    cases counts with
    | nil => trivial
    | cons count counts => exact h.elim
  | cons bound bounds ih =>
    cases counts with
    | nil => exact h.elim
    | cons count counts =>
      obtain ⟨hcount, hrest⟩ := h
      rw [pairwise_cons] at hsorted
      have hhere : value ≤ bound → Cumulative (value :: values) before ((count + 1) :: counts) (bound :: bounds) := by
        intro hle
        refine ⟨?_, ?_⟩
        · rw [countP_cons_of_pos (by simpa using hle), Nat.cast_add, ← hcount, Nat.cast_one, add_assoc]
        · rw [← add_assoc]
          exact hrest.below fun b hb => hle.trans (hsorted.1 b hb).le
      cases bounds with
      | nil => exact hhere (hlast bound rfl)
      | cons next bounds =>
        rw [indexIn]
        by_cases hle : value ≤ bound
        · rw [if_pos hle]
          exact hhere hle
        · rw [if_neg hle]
          refine ⟨?_, ih hrest hsorted.2 ?_⟩
          · rw [countP_cons_of_neg (by simpa using hle), hcount]
          · intro last hmem
            exact hlast last (by rwa [List.getLast?_cons_cons])

/-- All values are counted where none is above the last bound. -/
theorem Cumulative.sum (h : Cumulative values before counts bounds) {last : ℚ} (hlast : bounds.getLast? = some last)
    (hvalues : ∀ value ∈ values, value ≤ last) : before + counts.sum = values.length := by
  induction bounds generalizing before counts with
  | nil => cases hlast
  | cons bound bounds ih =>
    cases counts with
    | nil => exact h.elim
    | cons count counts =>
      rw [sum_cons, ← add_assoc]
      cases bounds with
      | nil =>
        cases counts with
        | nil =>
          cases hlast
          rw [h.1, countP_eq_length.mpr (by simpa using hvalues), sum_nil, add_zero]
        | cons count' counts => exact h.2.elim
      | cons next bounds => exact ih h.2 (by rwa [List.getLast?_cons_cons] at hlast)

theorem Parts.cumulative {bounds : List ℚ} (hsorted : bounds.Pairwise (· < ·)) (parts : Parts)
    (hlast : ∀ last ∈ bounds.getLast?, ∀ value ∈ parts.durations, value ≤ last) :
    Cumulative parts.durations 0 (parts.counts bounds).1 bounds := by
  induction parts with
  | observed durations =>
    -- The loop counts in one duration after another, from the first on.
    have hloop : ∀ (rest values : List ℚ) (counts : Counts bounds), (∀ last ∈ bounds.getLast?, ∀ value ∈ rest, value ≤ last) →
        Cumulative values 0 counts.1 bounds → Cumulative (rest ++ values) 0 (rest.foldl (fun counts seconds => counts.increment (indexIn bounds seconds)) counts).1 bounds := by
      intro rest
      induction rest with
      | nil => exact fun _ _ _ h => h
      | cons value rest ih =>
        intro values counts hlast h
        have hobserved := Cumulative.observe h hsorted fun last hm => hlast last hm value mem_cons_self
        have hrest := ih (value :: values) (counts.increment (indexIn bounds value))
          (fun last hm a ha => hlast last hm a (mem_cons_of_mem _ ha)) hobserved
        exact hrest.perm perm_middle
    have h := hloop durations [] (.zero bounds) hlast (Cumulative.nil bounds)
    rwa [append_nil] at h
  | merged left right ihl ihr =>
    have hl := ihl fun last hm value hv => hlast last hm value (mem_append_left _ hv)
    have hr := ihr fun last hm value hv => hlast last hm value (mem_append_right _ hv)
    exact hl.append hr

theorem Cumulative.coarsen {fine : List ℚ} {counts : List Int} (h : Cumulative values before counts fine) (hfine : fine.Pairwise (· < ·))
    (hsorted : bounds.Pairwise (· < ·)) (hsub : bounds ⊆ fine) : Cumulative values before (coarsen bounds fine counts) bounds := by
  induction bounds generalizing before fine counts with
  | nil => trivial
  | cons bound bounds ih =>
    rw [pairwise_cons] at hsorted
    obtain ⟨hcount, hrest⟩ := h.take hfine (hsub mem_cons_self)
    refine ⟨hcount, ih hrest (hfine.sublist (drop_sublist _ _)) hsorted.2 fun b hb => ?_⟩
    -- A later bound is not among those that were taken.
    have hmem : b ∈ fine.take (fine.takeWhile (· ≤ bound)).length ++ fine.drop (fine.takeWhile (· ≤ bound)).length := by
      rw [take_append_drop]
      exact hsub (mem_cons_of_mem _ hb)
    refine (mem_append.mp hmem).resolve_left fun htaken => ?_
    rw [← prefix_iff_eq_take.mp (List.takeWhile_prefix _)] at htaken
    have hle := mem_takeWhile_imp htaken
    exact absurd (hsorted.1 b hb) (not_lt.mpr (by simpa using hle))

end Counting

end ControlTower.Latency
