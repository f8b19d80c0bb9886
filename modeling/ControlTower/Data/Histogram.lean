import Mathlib.Algebra.BigOperators.Group.List.Basic
import Mathlib.Algebra.Ring.Int.Defs
import Mathlib.Data.Nat.Cast.Basic
import Mathlib.Data.List.Sort

/-! Counts of values between bounds.

Counts belong to values and bounds where, added up as far as a bound, they are the
number of the values that are not above it. That is kept when values are counted in,
when counts of the same bounds are added, and when counts between neighbouring bounds
are put together. In order of size, the values up to a bound are the first ones: which
of them stand there is told by how many there are. -/
namespace ControlTower.Data
open List

variable {α : Type} [LinearOrder α]

/-- Number `i` of an ordered list is not above a bound if more than `i` values are not. -/
theorem le_bound_iff {values : List α} (h : values.Pairwise (· ≤ ·)) (bound : α) {i : Nat} {value : α} (hi : values[i]? = some value) :
    value ≤ bound ↔ i < values.countP (· ≤ bound) := by
  induction values generalizing i with
  | nil => cases hi
  | cons first values ih =>
    rw [pairwise_cons] at h
    by_cases hfirst : first ≤ bound
    · rw [countP_cons_of_pos (by simpa using hfirst)]
      cases i with
      | zero =>
        cases hi
        exact iff_of_true hfirst (Nat.succ_pos _)
      | succ i =>
        rw [ih h.2 hi]
        omega
    · -- The values after one that is above the bound are above it as well.
      have hzero : (first :: values).countP (· ≤ bound) = 0 := by
        refine countP_eq_zero.mpr fun a ha => ?_
        rw [decide_eq_true_eq]
        rcases mem_cons.mp ha with rfl | ha
        · exact hfirst
        · exact fun hle => hfirst ((h.1 a ha).trans hle)
      rw [hzero, iff_false_right (Nat.not_lt_zero i)]
      cases i with
      | zero =>
        cases hi
        exact hfirst
      | succ i => exact fun hle => hfirst ((h.1 value (mem_of_getElem? hi)).trans hle)

/-- The counts of the values between the bounds, where `before` values stand below the first. -/
def Cumulative (values : List α) : Int → List Int → List α → Prop
  | _, [], [] => True
  | before, count :: counts, bound :: bounds =>
    before + count = values.countP (· ≤ bound) ∧ Cumulative values (before + count) counts bounds
  | _, _, _ => False

namespace Cumulative
variable {values values' : List α} {before before' : Int} {counts counts' : List Int} {bounds : List α}

theorem nil (bounds : List α) : Cumulative [] 0 (List.replicate bounds.length 0) bounds := by
  induction bounds with
  | nil => trivial
  | cons bound bounds ih => exact ⟨rfl, ih⟩

variable (h : Cumulative values before counts bounds)
include h

theorem perm (hperm : values.Perm values') : Cumulative values' before counts bounds := by
  induction bounds generalizing before counts with
  | nil =>
    cases counts with
    | nil => trivial
    | cons count counts => exact h
  | cons bound bounds ih =>
    cases counts with
    | nil => exact h
    | cons count counts => exact ⟨h.1.trans (by rw [hperm.countP_eq]), ih h.2⟩

/-- A value below all the bounds that are left. -/
theorem below {value : α} (hvalue : ∀ bound ∈ bounds, value ≤ bound) :
    Cumulative (value :: values) (before + 1) counts bounds := by
  induction bounds generalizing before counts with
  | nil =>
    cases counts with
    | nil => trivial
    | cons count counts => exact h
  | cons bound bounds ih =>
    cases counts with
    | nil => exact h
    | cons count counts =>
      obtain ⟨hcount, hrest⟩ := h
      have hle := hvalue bound mem_cons_self
      refine ⟨?_, ?_⟩
      · rw [countP_cons_of_pos (by simpa using hle), Nat.cast_add, ← hcount, Nat.cast_one, add_right_comm]
      · rw [add_right_comm]
        exact ih hrest fun b hb => hvalue b (mem_cons_of_mem _ hb)

theorem append (h' : Cumulative values' before' counts' bounds) :
    Cumulative (values ++ values') (before + before') (List.zipWith (· + ·) counts counts') bounds := by
  induction bounds generalizing before before' counts counts' with
  | nil =>
    cases counts with
    | nil => trivial
    | cons count counts => exact h.elim
  | cons bound bounds ih =>
    cases counts with
    | nil => exact h.elim
    | cons count counts =>
      cases counts' with
      | nil => exact h'.elim
      | cons count' counts' =>
        refine ⟨?_, ?_⟩
        · rw [countP_append, Nat.cast_add, ← h.1, ← h'.1, add_add_add_comm]
        · rw [add_add_add_comm]
          exact ih h.2 h'.2

/-- The counts as far as one of the bounds, and those that are left. -/
theorem take {bound : α} (hsorted : bounds.Pairwise (· < ·)) (hmem : bound ∈ bounds) :
    let taken := (bounds.takeWhile (· ≤ bound)).length
    before + (counts.take taken).sum = values.countP (· ≤ bound) ∧
      Cumulative values (before + (counts.take taken).sum) (counts.drop taken) (bounds.drop taken) := by
  induction bounds generalizing before counts with
  | nil => cases hmem
  | cons first bounds ih =>
    cases counts with
    | nil => exact h.elim
    | cons count counts =>
      obtain ⟨hcount, hrest⟩ := h
      rw [pairwise_cons] at hsorted
      rcases mem_cons.mp hmem with rfl | hlater
      · have hstop : bounds.takeWhile (· ≤ bound) = [] := by
          cases bounds with
          | nil => rfl
          | cons next bounds =>
            have hlt := hsorted.1 next mem_cons_self
            rw [takeWhile_cons_of_neg (by simpa using hlt)]
        rw [takeWhile_cons_of_pos (by simp), hstop]
        simpa using And.intro hcount hrest
      · have hle := (hsorted.1 bound hlater).le
        rw [takeWhile_cons_of_pos (by simpa using hle), length_cons]
        simp only [take_succ_cons, drop_succ_cons, sum_cons, ← add_assoc]
        exact ih hrest hsorted.2 hlater

end Cumulative

end ControlTower.Data
