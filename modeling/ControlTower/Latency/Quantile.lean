import Mathlib.Data.List.GetD
import ControlTower.Latency.Histogram

/-! Where a quantile lies.

The counts reach a rank in the bucket of the value that has this rank, because they
reach it exactly where enough values are not above the bound. Interpolation stays inside
the bucket. It stays there in the coarser layout too, since each of its bounds is one of
the finer layout, and so the two layouts agree on the coarser bucket. -/
namespace ControlTower.Latency
open Data List

section Interpolation
variable {values : List ℚ} {previous : Int} {counts : List Int} {bounds : List ℚ} {target lower : ℚ}

/-- In the bucket in which the target is reached, the fraction is positive and at most one. -/
theorem fraction_spec {count : Int} (hprevious : (previous : ℚ) < target)
    (htarget : target ≤ ((previous + count : Int) : ℚ)) :
    0 < count ∧ 0 < (target - previous) / count ∧ (target - previous) / count ≤ 1 := by
  rw [Int.cast_add] at htarget
  have hcount : (0 : ℚ) < count := by linarith
  refine ⟨Int.cast_pos.mp hcount, div_pos (by linarith) hcount, ?_⟩
  rw [div_le_one hcount]
  linarith

/-- A step of the loop, where the target is not reached before its bucket. -/
theorem interpolateFrom_cons {count : Int} {bound : ℚ} (hprevious : (previous : ℚ) < target) :
    interpolateFrom target lower previous (count :: counts) (bound :: bounds) =
      if target ≤ ((previous + count : Int) : ℚ) then some (lower + (target - previous) / count *
        (bound - lower))
      else interpolateFrom target bound (previous + count) counts bounds := by
  rw [interpolateFrom]
  split
  next htarget =>
    obtain ⟨hcount, hpos, hone⟩ := fraction_spec hprevious htarget
    simp only [if_pos hcount]
    rw [min_eq_right hone, max_eq_right hpos.le]
  next => rfl

/-- **The interpolated value and the bucket it is in**, by the counts on both sides. -/
theorem interpolateFrom_spec (h : Cumulative values previous counts bounds)
    (hsorted : (lower :: bounds).Pairwise (· < ·))
    (hprevious : (previous : ℚ) < target) (htarget : target ≤ ((previous + counts.sum : Int) : ℚ)) :
    ∃ i value, interpolateFrom target lower previous counts bounds = some value ∧
      i < bounds.length ∧
      (lower :: bounds).getD i 0 < value ∧ value ≤ bounds.getD i 0 ∧
      (i ≠ 0 → ((values.countP (· ≤ (lower :: bounds).getD i 0) : Int) : ℚ) < target) ∧
      target ≤ ((values.countP (· ≤ bounds.getD i 0) : Int) : ℚ) := by
  induction bounds generalizing previous counts lower with
  | nil =>
    cases counts with
    | nil =>
      rw [sum_nil, add_zero] at htarget
      exact absurd hprevious (not_lt.mpr htarget)
    | cons count counts => exact h.elim
  | cons bound bounds ih =>
    cases counts with
    | nil => exact h.elim
    | cons count counts =>
      obtain ⟨hcount, hrest⟩ := h
      rw [pairwise_cons] at hsorted
      have hlt := hsorted.1 bound mem_cons_self
      rw [interpolateFrom_cons hprevious]
      split
      next hreached =>
        obtain ⟨-, hpos, hone⟩ := fraction_spec hprevious hreached
        refine ⟨0, _, rfl, by simp, ?_, ?_, fun hne => absurd rfl hne, ?_⟩
        · show lower < lower + _ * (bound - lower)
          have := mul_pos hpos (sub_pos.mpr hlt)
          linarith
        · show lower + _ * (bound - lower) ≤ bound
          have := mul_le_mul_of_nonneg_right hone (sub_pos.mpr hlt).le
          linarith
        · show target ≤ ((values.countP (· ≤ bound) : Int) : ℚ)
          rwa [← hcount]
      next hlater =>
        rw [not_le] at hlater
        rw [sum_cons, ← add_assoc] at htarget
        obtain ⟨i, value, hvalue, hi, hlower, hupper, hbelow, hreached⟩ :=
          ih hrest hsorted.2 hlater htarget
        refine ⟨i + 1, value, hvalue, by simpa using hi, hlower, hupper, fun _ => ?_, hreached⟩
        cases i with
        | zero =>
          show ((values.countP (· ≤ bound) : Int) : ℚ) < target
          rwa [← hcount]
        | succ i => exact hbelow (Nat.succ_ne_zero i)

theorem lower_le_interpolateFrom (hsorted : (lower :: bounds).Pairwise (· < ·))
    (hprevious : (previous : ℚ) < target) {value : ℚ}
    (h : interpolateFrom target lower previous counts bounds = some value) : lower ≤ value := by
  induction bounds generalizing previous counts lower with
  | nil => cases counts <;> cases h
  | cons bound bounds ih =>
    cases counts with
    | nil => cases h
    | cons count counts =>
      rw [pairwise_cons] at hsorted
      have hlt := hsorted.1 bound mem_cons_self
      rw [interpolateFrom_cons hprevious] at h
      split at h
      next hreached =>
        cases h
        have := mul_pos (fraction_spec hprevious hreached).2.1 (sub_pos.mpr hlt)
        linarith
      next hlater => exact hlt.le.trans (ih hsorted.2 (not_le.mp hlater) h)

/-- A larger target is not reached earlier, nor lower in its bucket. -/
theorem interpolateFrom_mono {target' : ℚ} (hsorted : (lower :: bounds).Pairwise (· < ·))
    (hprevious : (previous : ℚ) < target)
    (hle : target ≤ target') {value value' : ℚ}
    (h : interpolateFrom target lower previous counts bounds = some value)
    (h' : interpolateFrom target' lower previous counts bounds = some value') : value ≤ value' := by
  induction bounds generalizing previous counts lower with
  | nil => cases counts <;> cases h
  | cons bound bounds ih =>
    cases counts with
    | nil => cases h
    | cons count counts =>
      rw [pairwise_cons] at hsorted
      have hlt := hsorted.1 bound mem_cons_self
      rw [interpolateFrom_cons hprevious] at h
      rw [interpolateFrom_cons (hprevious.trans_le hle)] at h'
      split at h
      next hreached =>
        cases h
        obtain ⟨hcount, -, hone⟩ := fraction_spec hprevious hreached
        split at h'
        next =>
          cases h'
          have hfraction : (target - previous) / count ≤ (target' - previous) / count := by
            apply div_le_div_of_nonneg_right
            · linarith
            · exact Int.cast_nonneg hcount.le
          have := mul_le_mul_of_nonneg_right hfraction (sub_pos.mpr hlt).le
          linarith
        next hlater =>
          have hbound := lower_le_interpolateFrom hsorted.2 (not_le.mp hlater) h'
          have := mul_le_mul_of_nonneg_right hone (sub_pos.mpr hlt).le
          linarith
      next hlater =>
        rw [if_neg (not_le.mpr ((not_le.mp hlater).trans_le hle))] at h'
        exact ih hsorted.2 (not_le.mp hlater) h h'

end Interpolation

/-! ### Quantiles of counted values -/

/-- Bounds in order, the last of them `last`. -/
structure Ladder (bounds : List ℚ) (last : ℚ) : Prop where
  sorted : (0 :: bounds).Pairwise (· < ·)
  last : bounds.getLast? = some last

section Quantile
variable {values : List ℚ} {counts : List Int} {bounds : List ℚ} {last q : ℚ}

theorem interpolate_eq (h : Cumulative values 0 counts bounds) (hbounds : Ladder bounds last)
    (hvalues : ∀ value ∈ values, value ≤ last)
    (hne : values ≠ []) (hpos : 0 < q) (hone : q ≤ 1) :
    interpolate counts bounds q =
      some ((interpolateFrom (values.length * q) 0 0 counts bounds).getD last) := by
  have hsum := Cumulative.sum h hbounds.last hvalues
  rw [zero_add] at hsum
  have hlength : 0 < values.length := length_pos_iff.mpr hne
  have htarget : 0 < (values.length : ℚ) * q := mul_pos (Nat.cast_pos.mpr hlength) hpos
  have htotal : counts.sum ≠ 0 := by omega
  simp only [interpolate]
  rw [if_neg htotal, if_neg (not_le.mpr hpos), if_neg (not_lt.mpr hone), hsum, Int.cast_natCast,
    if_neg (not_le.mpr htarget), hbounds.last]
  rfl

/-- The value of a rank that a target asks for, and the bucket in which it is reached. -/
theorem interpolate_spec (h : Cumulative values 0 counts bounds) (hbounds : Ladder bounds last)
    (hvalues : ∀ value ∈ values, 0 ≤ value ∧ value ≤ last)
    (hne : values ≠ []) (hpos : 0 < q) (hone : q ≤ 1) {ranked : ℚ}
    (hranked : (values.insertionSort (· ≤ ·))[⌈q * values.length⌉.toNat - 1]? = some ranked) :
    ∃ value, interpolate counts bounds q = some value ∧ ∃ j, InBucket bounds j value ∧
      InBucket bounds j ranked := by
  have hlength : 0 < values.length := length_pos_iff.mpr hne
  have htarget : 0 < (values.length : ℚ) * q := mul_pos (Nat.cast_pos.mpr hlength) hpos
  have hsum := Cumulative.sum h hbounds.last fun value hv => (hvalues value hv).2
  have hreach : (values.length : ℚ) * q ≤ ((0 + counts.sum : Int) : ℚ) := by
    rw [hsum, Int.cast_natCast]
    exact mul_le_of_le_one_right (Nat.cast_nonneg _) hone
  obtain ⟨i, value, hvalue, hi, hlower, hupper, hbelow, hreached⟩ :=
    interpolateFrom_spec h hbounds.sorted (by simpa using htarget) hreach
  refine ⟨value, ?_, i, ⟨hi, ?_, hupper⟩, ⟨hi, ?_, ?_⟩⟩
  · rw [interpolate_eq h hbounds (fun value hv => (hvalues value hv).2) hne hpos hone, hvalue]
    rfl
  · cases i with
    | zero => exact hlower.le
    | succ i => exact hlower
  all_goals
    -- The rank is the least whole number that the target does not exceed.
    have hrank : ∀ n : Nat, (values.length : ℚ) * q ≤ ((n : Int) : ℚ) ↔
        ⌈q * values.length⌉.toNat - 1 < n := by
      intro n
      have hceil : 0 < ⌈q * values.length⌉ := Int.ceil_pos.mpr (by rwa [mul_comm])
      rw [mul_comm, ← Int.ceil_le]
      omega
    have hsorted : (values.insertionSort (· ≤ ·)).Pairwise (· ≤ ·) := pairwise_insertionSort _ _
    have hcount : ∀ bound : ℚ, (values.insertionSort (· ≤ ·)).countP (· ≤ bound) =
        values.countP (· ≤ bound) :=
      fun bound => (perm_insertionSort _ _).countP_eq _
  · cases i with
    | zero =>
      have hmem := mem_of_getElem? hranked
      exact (hvalues ranked ((mem_insertionSort _).mp hmem)).1
    | succ i =>
      have hnot := hbelow (Nat.succ_ne_zero i)
      rw [← not_le, hrank, ← hcount, ← le_bound_iff hsorted _ hranked, not_le] at hnot
      exact hnot
  · rw [hrank, ← hcount, ← le_bound_iff hsorted _ hranked] at hreached
    exact hreached

theorem interpolate_mono (h : Cumulative values 0 counts bounds) (hbounds : Ladder bounds last)
    (hvalues : ∀ value ∈ values, 0 ≤ value ∧ value ≤ last)
    (hne : values ≠ []) (hpos : 0 < q) {q' : ℚ} (hle : q ≤ q') (hone : q' ≤ 1) {value value' : ℚ}
    (hvalue : interpolate counts bounds q = some value)
    (hvalue' : interpolate counts bounds q' = some value') : value ≤ value' := by
  have hlength : (0 : ℚ) < values.length := Nat.cast_pos.mpr (length_pos_iff.mpr hne)
  have hsum := Cumulative.sum h hbounds.last fun value hv => (hvalues value hv).2
  have hreach : ∀ p : ℚ, 0 < p → p ≤ 1 →
      ∃ v, interpolateFrom (values.length * p) 0 0 counts bounds = some v := by
    intro p hp hp1
    have hle : (values.length : ℚ) * p ≤ ((0 + counts.sum : Int) : ℚ) := by
      rw [hsum, Int.cast_natCast]
      exact mul_le_of_le_one_right hlength.le hp1
    obtain ⟨i, v, hv, -⟩ := interpolateFrom_spec h hbounds.sorted
      (by simpa using mul_pos hlength hp) hle
    exact ⟨v, hv⟩
  have hupper : ∀ value ∈ values, value ≤ last := fun value hv => (hvalues value hv).2
  obtain ⟨v, hv⟩ := hreach q hpos (hle.trans hone)
  obtain ⟨v', hv'⟩ := hreach q' (hpos.trans_le hle) hone
  rw [interpolate_eq h hbounds hupper hne hpos (hle.trans hone), hv] at hvalue
  rw [interpolate_eq h hbounds hupper hne (hpos.trans_le hle) hone, hv'] at hvalue'
  cases hvalue
  cases hvalue'
  exact interpolateFrom_mono hbounds.sorted (by simpa using mul_pos hlength hpos)
    (mul_le_mul_of_nonneg_left hle hlength.le) hv hv'

/-- A value of a bucket is not above exactly the bounds from its own on. -/
theorem InBucket.le_iff (hbounds : Ladder bounds last) {j i : Nat} {x bound : ℚ}
    (h : InBucket bounds j x) (hi : bounds[i]? = some bound) :
    x ≤ bound ↔ j ≤ i := by
  obtain ⟨hj, hlower, hupper⟩ := h
  obtain ⟨hlength, rfl⟩ := List.getElem?_eq_some_iff.mp hi
  have hsorted := pairwise_iff_getElem.mp (pairwise_cons.mp hbounds.sorted).2
  rw [getD_eq_getElem _ _ hj] at hupper
  constructor
  · intro hle
    by_contra hlt
    rw [if_neg (by omega), getD_eq_getElem _ _ (by omega)] at hlower
    have hmono : bounds[i] ≤ bounds[j - 1] := by
      rcases Nat.lt_or_ge i (j - 1) with hlt' | hge
      · exact (hsorted i (j - 1) hlength (by omega) hlt').le
      · have : i = j - 1 := by omega
        subst this
        exact le_rfl
    exact absurd hle (not_le.mpr (hmono.trans_lt hlower))
  · intro hle
    rcases Nat.lt_or_ge j i with hlt | hge
    · exact hupper.trans (hsorted j i hj hlength hlt).le
    · have : j = i := by omega
      subst this
      exact hupper

theorem InBucket.nonneg (hbounds : Ladder bounds last) {j : Nat} {x : ℚ} (h : InBucket bounds j x) :
    0 ≤ x := by
  obtain ⟨hj, hlower, -⟩ := h
  split at hlower
  next => exact hlower
  next =>
    rw [getD_eq_getElem _ _ (by omega)] at hlower
    have hpos := (pairwise_cons.mp hbounds.sorted).1 _
      (getElem_mem (show j - 1 < bounds.length by omega))
    exact (hpos.trans hlower).le

/-- Two values of one fine bucket are in one coarse bucket. -/
theorem InBucket.coarse {fine : List ℚ} (hfine : Ladder fine last) (hsub : bounds ⊆ fine)
    {j i : Nat} {x y : ℚ}
    (hx : InBucket fine j x) (hy : InBucket fine j y) (h : InBucket bounds i y) :
      InBucket bounds i x := by
  have hsame : ∀ bound ∈ bounds, (x ≤ bound ↔ y ≤ bound) := by
    intro bound hbound
    obtain ⟨n, hn⟩ := mem_iff_getElem?.mp (hsub hbound)
    rw [hx.le_iff hfine hn, hy.le_iff hfine hn]
  obtain ⟨hi, hlower, hupper⟩ := h
  refine ⟨hi, ?_, ?_⟩
  · split
    next => exact hx.nonneg hfine
    next hne =>
      rw [if_neg hne, getD_eq_getElem _ _ (by omega)] at hlower
      rw [getD_eq_getElem _ _ (by omega), ← not_le, hsame _ (getElem_mem _), not_le]
      exact hlower
  · rw [getD_eq_getElem _ _ hi] at hupper ⊢
    exact (hsame _ (getElem_mem hi)).mpr hupper

end Quantile

/-! ### The two layouts -/

theorem upperBounds_ladder : Ladder upperBounds 120 := ⟨by decide +kernel, rfl⟩

theorem upperBoundsV2_ladder : Ladder upperBoundsV2 120 := ⟨by decide +kernel, rfl⟩

/-- **Quantiles are right to within a bucket, after any merging.** In both layouts the
quantile is in the bucket of the value of its rank, and it does not fall where `q`
rises; and the quantile of the finer histogram is in the bucket in which the coarser one
that is derived from it has its own. -/
theorem quantile_within_bucket (durations : List ℚ) (hne : durations ≠ [])
    (hrange : ∀ seconds ∈ durations, 0 ≤ seconds ∧ seconds ≤ 120)
    (parts : Parts) (hparts : parts.durations.Perm durations) :
    (∀ q : ℚ, 0 < q → q ≤ 1 → ∃ ranked v₁ v₂ derived,
      (durations.insertionSort (· ≤ ·))[⌈q * durations.length⌉.toNat - 1]? = some ranked ∧
      quantile parts.buckets q = some v₁ ∧
        (∃ j, InBucket upperBounds j v₁ ∧ InBucket upperBounds j ranked) ∧
      quantileV2 parts.bucketsV2 q = some v₂ ∧
        (∃ j, InBucket upperBoundsV2 j v₂ ∧ InBucket upperBoundsV2 j ranked) ∧
      quantile (deriveV1 parts.bucketsV2) q = some derived ∧ ∃ j, InBucket upperBounds j v₂ ∧
        InBucket upperBounds j derived) ∧
    ∀ q q' : ℚ, 0 < q → q ≤ q' → q' ≤ 1 →
      (∀ v v', quantile parts.buckets q = some v → quantile parts.buckets q' = some v' → v ≤ v') ∧
      ∀ v v', quantileV2 parts.bucketsV2 q = some v → quantileV2 parts.bucketsV2 q' = some v' →
        v ≤ v' := by
  have hcounted : ∀ {bounds : List ℚ}, Ladder bounds 120 →
      Cumulative durations 0 (parts.counts bounds).1 bounds := by
    intro bounds hbounds
    refine (parts.cumulative (pairwise_cons.mp hbounds.sorted).2 fun last hlast value hvalue =>
      ?_).perm hparts
    rw [hbounds.last] at hlast
    cases hlast
    exact (hrange value (hparts.mem_iff.mp hvalue)).2
  have h₁ := hcounted upperBounds_ladder
  have h₂ := hcounted upperBoundsV2_ladder
  rw [parts.counts_upperBounds] at h₁
  rw [parts.counts_upperBoundsV2] at h₂
  have hsub : upperBounds ⊆ upperBoundsV2 := by decide +kernel
  have hderived : Cumulative durations 0 (deriveV1 parts.bucketsV2).1 upperBounds :=
    Cumulative.coarsen h₂ (pairwise_cons.mp upperBoundsV2_ladder.sorted).2
      (pairwise_cons.mp upperBounds_ladder.sorted).2 hsub
  constructor
  · intro q hpos hone
    have hlength : 0 < durations.length := length_pos_iff.mpr hne
    have hrank : ⌈q * durations.length⌉.toNat - 1 < (durations.insertionSort (· ≤ ·)).length := by
      rw [length_insertionSort]
      have hle : ⌈q * durations.length⌉ ≤ durations.length := by
        rw [Int.ceil_le, Int.cast_natCast]
        exact mul_le_of_le_one_left (Nat.cast_nonneg _) hone
      omega
    have hranked := List.getElem?_eq_getElem hrank
    obtain ⟨v₁, hv₁, hb₁⟩ := interpolate_spec h₁ upperBounds_ladder hrange hne hpos hone hranked
    obtain ⟨v₂, hv₂, j, hj, hj'⟩ :=
      interpolate_spec h₂ upperBoundsV2_ladder hrange hne hpos hone hranked
    obtain ⟨derived, hd, i, hi, hi'⟩ :=
      interpolate_spec hderived upperBounds_ladder hrange hne hpos hone hranked
    exact ⟨_, v₁, v₂, derived, hranked, hv₁, hb₁, hv₂, ⟨j, hj, hj'⟩, hd, i,
      hj.coarse upperBoundsV2_ladder hsub hj' hi', hi⟩
  · intro q q' hpos hle hone
    exact ⟨fun v v' => interpolate_mono h₁ upperBounds_ladder hrange hne hpos hle hone,
      fun v v' => interpolate_mono h₂ upperBoundsV2_ladder hrange hne hpos hle hone⟩

/-- Three durations in two parts: the median is in the bucket of the second of them. -/
theorem quantile_within_bucket_three :
    quantileV2 (Parts.merged (.observed [9]) (.observed [1 / 5, 7])).bucketsV2 (1 / 2) =
      some (13 / 2) ∧
      ∃ ranked v₁ v₂ derived, ([7, 1 / 5, 9].insertionSort (· ≤ ·))[⌈(1 / 2 : ℚ) * 3⌉.toNat - 1]? =
        some ranked ∧
        quantile (Parts.merged (.observed [9]) (.observed [1 / 5, 7])).buckets (1 / 2) = some v₁ ∧
        (∃ j, InBucket upperBounds j v₁ ∧ InBucket upperBounds j ranked) ∧
        quantileV2 (Parts.merged (.observed [9]) (.observed [1 / 5, 7])).bucketsV2 (1 / 2) =
          some v₂ ∧
        (∃ j, InBucket upperBoundsV2 j v₂ ∧ InBucket upperBoundsV2 j ranked) ∧
        quantile (deriveV1 (Parts.merged (.observed [9]) (.observed [1 / 5, 7])).bucketsV2)
          (1 / 2) = some derived ∧
        ∃ j, InBucket upperBounds j v₂ ∧ InBucket upperBounds j derived := by
  refine ⟨by decide +kernel, ?_⟩
  exact (quantile_within_bucket [7, 1 / 5, 9] (by decide +kernel) (by decide +kernel)
    (.merged (.observed [9]) (.observed [1 / 5, 7])) (by decide +kernel)).1
    (1 / 2) (by decide +kernel) (by decide +kernel)

end ControlTower.Latency
