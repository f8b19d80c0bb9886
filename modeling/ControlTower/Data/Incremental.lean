/-! A hash that is fed in pieces.

What has been written is all that matters of a state: the pieces in which it came do not,
and neither does a state's being saved and restored in between. -/
namespace ControlTower.Data
open List

structure Incremental (α S D : Type) where
  start : S
  write : S → List α → S
  digest : S → D
  save : S → List α
  restore : List α → Option S
  write_append : ∀ s a b, write s (a ++ b) = write (write s a) b
  write_nil : ∀ s, write s [] = s
  restore_save : ∀ s, restore (save s) = some s
  /-- A saved state is told from no state at all. -/
  save_ne : ∀ s, save s ≠ []

namespace Incremental
variable {α S D : Type} (h : Incremental α S D)

/-- The state once these are written. -/
def after (a : List α) : S := h.write h.start a

theorem after_nil : h.after [] = h.start := h.write_nil h.start

theorem write_after (a b : List α) : h.write (h.after a) b = h.after (a ++ b) := (h.write_append h.start a b).symm

/-- Pieces that are written one after another. -/
theorem foldl_write {β : Type} (step : S → β → S) (piece : β → List α) (hstep : ∀ s b, step s b = h.write s (piece b)) (l : List β) (a : List α) :
    l.foldl step (h.after a) = h.after (a ++ l.flatMap piece) := by
  induction l generalizing a with
  | nil => rw [flatMap_nil, append_nil, foldl_nil]
  | cons b l ih => rw [foldl_cons, hstep, write_after, ih, flatMap_cons, append_assoc]

end Incremental

end ControlTower.Data
