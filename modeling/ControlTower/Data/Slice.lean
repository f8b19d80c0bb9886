import Mathlib.Data.List.Basic

/-! Slices of a sequence that grows at its end and is consumed at its front.

Every item has the number of those that came before it. A slice says how many have left
it, so the numbers of its items follow; a bounded one drops its oldest item for a new one. -/
namespace ControlTower.Data

structure Slice (α : Type) where
  offset : Nat
  items : List α

namespace Slice
variable {α : Type}

def empty : Slice α := ⟨0, []⟩

variable (q : Slice α)

/-- The number of the next item. -/
def stop : Nat := q.offset + q.items.length

/-- The numbers of the items. -/
def numbers : List Nat := List.range' q.offset q.items.length

def append (a : α) : Slice α := { q with items := q.items ++ [a] }

def drop (n : Nat) : Slice α := ⟨q.offset + min n q.items.length, q.items.drop n⟩

theorem mem_numbers {q : Slice α} {i : Nat} : i ∈ q.numbers ↔ q.offset ≤ i ∧ i < q.stop := by
  simp [numbers, stop, List.mem_range'_1]

@[simp] theorem drop_offset (n : Nat) : (q.drop n).offset = q.offset + min n q.items.length := rfl

@[simp] theorem drop_stop (n : Nat) : (q.drop n).stop = q.stop := by
  simp only [stop, drop, List.length_drop]
  omega

@[simp] theorem append_offset (a : α) : (q.append a).offset = q.offset := rfl

@[simp] theorem append_stop (a : α) : (q.append a).stop = q.stop + 1 := by
  simp only [stop, append, List.length_append, List.length_singleton]
  omega

/-- Items were dropped from the front for new ones, at most one for each. -/
structure Shifts (q q' : Slice α) : Prop where
  offset : q.offset ≤ q'.offset
  paid : q'.offset + q.stop ≤ q.offset + q'.stop

theorem Shifts.refl : Shifts q q := ⟨Nat.le_refl _, Nat.le_refl _⟩

theorem Shifts.trans {q₁ q₂ q₃ : Slice α} (h : Shifts q₁ q₂) (h' : Shifts q₂ q₃) : Shifts q₁ q₃ := by
  have h₁ := h.offset
  have h₂ := h'.offset
  have h₃ := h.paid
  have h₄ := h'.paid
  exact ⟨by omega, by omega⟩

theorem shifts_append (a : α) : Shifts q (q.append a) := ⟨Nat.le_refl _, by simp⟩

/-- One item is dropped for the new one. -/
theorem shifts_drop_append (a : α) : Shifts q ((q.drop 1).append a) := by
  constructor
  · simp
  · simp only [append_offset, append_stop, drop_stop, drop_offset]
    omega

end Slice
end ControlTower.Data
