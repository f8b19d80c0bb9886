import Mathlib.Data.List.Basic

/-! Lists of half-open intervals that lie end to end.

`Tiles lo hi a xs b` says that the intervals `[lo x, hi x)` of `xs` are not empty, that
each starts where the one before it ended, and that together they are `[a, b)`. -/
namespace ControlTower.Data

variable {α : Type} {lo hi : α → Nat} {a b c d : Nat} {x : α} {xs ys : List α}

def Tiles (lo hi : α → Nat) (a : Nat) : List α → Nat → Prop
  | [], b => a = b
  | x :: xs, b => lo x = a ∧ lo x < hi x ∧ Tiles lo hi (hi x) xs b

namespace Tiles

theorem nil : Tiles lo hi a [] a := rfl

theorem single (ha : lo x = a) (hlt : lo x < hi x) (hb : hi x = b) : Tiles lo hi a [x] b := ⟨ha, hlt, hb⟩

theorem append (hx : Tiles lo hi a xs b) (hy : Tiles lo hi b ys c) : Tiles lo hi a (xs ++ ys) c := by
  induction xs generalizing a with
  | nil => cases hx; exact hy
  | cons x xs ih => exact ⟨hx.1, hx.2.1, ih hx.2.2⟩

theorem split (h : Tiles lo hi a (xs ++ ys) c) : ∃ b, Tiles lo hi a xs b ∧ Tiles lo hi b ys c := by
  induction xs generalizing a with
  | nil => exact ⟨a, rfl, h⟩
  | cons x xs ih =>
    obtain ⟨b, hx, hy⟩ := ih h.2.2
    exact ⟨b, ⟨h.1, h.2.1, hx⟩, hy⟩

variable (h : Tiles lo hi a xs b)
include h

theorem le : a ≤ b := by
  induction xs generalizing a with
  | nil => exact Nat.le_of_eq h
  | cons x xs ih =>
    have := ih h.2.2
    have := h.1
    have := h.2.1
    omega

theorem bounds (hx : x ∈ xs) : a ≤ lo x ∧ lo x < hi x ∧ hi x ≤ b := by
  induction xs generalizing a with
  | nil => cases hx
  | cons y ys ih =>
    have hle := h.2.2.le
    have hlt := h.2.1
    have hlo := h.1
    cases hx with
    | head => exact ⟨by omega, hlt, hle⟩
    | tail _ hx =>
      have := ih h.2.2 hx
      exact ⟨by omega, this.2.1, this.2.2⟩

theorem lt (hne : xs ≠ []) : a < b := by
  cases xs with
  | nil => exact absurd rfl hne
  | cons x xs =>
    have := h.1
    have := h.2.1
    have := h.2.2.le
    omega

/-- A tiling has one end. -/
theorem stop_unique (h' : Tiles lo hi a xs c) : b = c := by
  induction xs generalizing a with
  | nil => exact Eq.trans (Eq.symm h) h'
  | cons x xs ih => exact ih h.2.2 h'.2.2

/-- Intervals say from where to where they reach. -/
theorem ends (h' : Tiles lo hi c xs d) (hne : xs ≠ []) : a = c ∧ b = d := by
  cases xs with
  | nil => exact absurd rfl hne
  | cons x xs =>
    have hstart : a = c := h.1.symm.trans h'.1
    subst hstart
    exact ⟨rfl, h.stop_unique h'⟩

/-- The intervals are disjoint and increasing. -/
theorem pairwise : xs.Pairwise fun x y => hi x ≤ lo y := by
  induction xs generalizing a with
  | nil => exact .nil
  | cons x xs ih => exact .cons (fun y hy => (h.2.2.bounds hy).1) (ih h.2.2)

end Tiles

end ControlTower.Data
