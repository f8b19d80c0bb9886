import Mathlib.Data.List.Basic
import Mathlib.Data.List.Pairwise
import Mathlib.Data.List.Lemmas

/-! Pages of the items that meet a condition, by position.

The items of a list are numbered from one. A page takes the first so many that meet a
condition after a cursor, and hands on the number of its last one as the next cursor, so
that the pages one after the other are the items that meet the condition. -/
namespace ControlTower.Data.Paging
open List
variable {α : Type} {p : α → Bool} {cursor offset : Nat}

/-- The items after a cursor that meet a condition, with their numbers; so many items come
before the list. -/
def hits (p : α → Bool) (cursor : Nat) : (offset : Nat) → List α → List (α × Nat)
  | _, [] => []
  | offset, a :: rest =>
    if cursor < offset + 1 ∧ p a = true then (a, offset + 1) :: hits p cursor (offset + 1) rest
    else hits p cursor (offset + 1) rest

theorem hits_cons (a : α) (rest : List α) : hits p cursor offset (a :: rest) =
    if cursor < offset + 1 ∧ p a = true then (a, offset + 1) :: hits p cursor (offset + 1) rest else hits p cursor (offset + 1) rest := rfl

theorem hits_append (l l' : List α) : hits p cursor offset (l ++ l') = hits p cursor offset l ++ hits p cursor (offset + l.length) l' := by
  induction l generalizing offset with
  | nil => rfl
  | cons a l ih =>
    rw [cons_append, hits_cons, hits_cons, ih, length_cons, Nat.add_assoc, Nat.add_comm 1]
    split <;> rfl

variable {l : List α}

theorem hits_eq_nil (h : ∀ a ∈ l, p a = false) : hits p cursor offset l = [] := by
  induction l generalizing offset with
  | nil => rfl
  | cons a l ih =>
    rw [hits_cons, if_neg (by simp [h a mem_cons_self])]
    exact ih fun b hb => h b (mem_cons_of_mem a hb)

theorem hits_before (h : offset + l.length ≤ cursor) : hits p cursor offset l = [] := by
  induction l generalizing offset with
  | nil => rfl
  | cons a l ih =>
    rw [length_cons] at h
    rw [hits_cons, if_neg (by omega)]
    exact ih (by omega)

theorem map_hits (l : List α) (h : cursor ≤ offset) : (hits p cursor offset l).map Prod.fst = l.filter p := by
  induction l generalizing offset with
  | nil => rfl
  | cons a l ih =>
    have hrest : (hits p cursor (offset + 1) l).map Prod.fst = l.filter p := ih (by omega)
    rw [hits_cons, filter_cons]
    by_cases ha : p a = true
    · rw [if_pos ⟨by omega, ha⟩, if_pos ha, map_cons, hrest]
    · rw [if_neg fun h => ha h.2, if_neg ha, hrest]

theorem lt_of_mem_hits {e : α × Nat} (h : e ∈ hits p cursor offset l) : offset < e.2 := by
  induction l generalizing offset with
  | nil => cases h
  | cons a l ih =>
    rw [hits_cons] at h
    split at h
    · rcases mem_cons.mp h with rfl | h
      · exact Nat.lt_succ_self offset
      · exact Nat.lt_of_succ_lt (ih h)
    · exact Nat.lt_of_succ_lt (ih h)

theorem cursor_lt_of_mem_hits {e : α × Nat} (h : e ∈ hits p cursor offset l) : cursor < e.2 := by
  induction l generalizing offset with
  | nil => cases h
  | cons a l ih =>
    rw [hits_cons] at h
    split at h
    · next ha =>
      rcases mem_cons.mp h with rfl | h
      · exact ha.1
      · exact ih h
    · exact ih h

theorem hits_sorted (l : List α) : (hits p cursor offset l).Pairwise fun e e' => e.2 < e'.2 := by
  induction l generalizing offset with
  | nil => exact List.Pairwise.nil
  | cons a l ih =>
    rw [hits_cons]
    split
    · exact pairwise_cons.mpr ⟨fun e he => lt_of_mem_hits he, ih⟩
    · exact ih

/-- A later cursor leaves the items after it. -/
theorem hits_filter {cursor' : Nat} (h : cursor ≤ cursor') (l : List α) :
    hits p cursor' offset l = (hits p cursor offset l).filter fun e => cursor' < e.2 := by
  induction l generalizing offset with
  | nil => rfl
  | cons a l ih =>
    rw [hits_cons, hits_cons, ih]
    by_cases ha : p a = true
    · by_cases hc : cursor' < offset + 1
      · rw [if_pos ⟨hc, ha⟩, if_pos ⟨by omega, ha⟩, filter_cons_of_pos (by simpa using hc)]
      · rw [if_neg fun h => hc h.1]
        split
        · rw [filter_cons_of_neg (by simpa using hc)]
        · rfl
    · rw [if_neg fun h => ha h.2, if_neg fun h => ha h.2]

/-- **After the last item of a page come the items that are left.** -/
theorem hits_rest {page rest : List (α × Nat)} {last : α × Nat} (h : hits p cursor offset l = page ++ last :: rest) :
    hits p last.2 offset l = rest := by
  have hcursor : cursor ≤ last.2 := (cursor_lt_of_mem_hits (h ▸ mem_append_right page mem_cons_self : last ∈ hits p cursor offset l)).le
  have hsorted : (hits p cursor offset l).Pairwise _ := hits_sorted l
  rw [h, pairwise_append, pairwise_cons] at hsorted
  obtain ⟨-, ⟨hrest, -⟩, hpage⟩ := hsorted
  rw [hits_filter hcursor, h, filter_append, filter_cons_of_neg (by simp)]
  have hnone : page.filter (fun e => last.2 < e.2) = [] := by
    refine filter_eq_nil_iff.mpr fun e he => ?_
    have := hpage e he last mem_cons_self
    simp only [decide_eq_true_eq]
    omega
  rw [hnone, nil_append]
  exact filter_eq_self.mpr fun e he => by simpa using hrest e he

end ControlTower.Data.Paging
