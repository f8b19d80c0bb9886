import ControlTower.Data.Table
import Mathlib.Algebra.BigOperators.Group.List.Lemmas
import Mathlib.Tactic.Abel

/-! Sums by key.

A tally holds one sum for each key it has seen; what is added goes to the sum of its
key. The sum over a condition on keys grows by what is added under it, in whatever
order and grouping the additions come, so that a tally of tallies, a coarser grouping
and a sum over a set of keys that covers it are all read off the list of additions. -/
namespace ControlTower.Data
open List

abbrev Tally (κ M : Type) := Table (Prod.fst : κ × M → κ)

namespace Tally
variable {κ μ M : Type} [AddCommGroup M]

def keys (t : Tally κ M) : List κ := t.rows.map Prod.fst

/-- The sum over the keys of a condition. -/
def sumOn (p : κ → Bool) (t : Tally κ M) : M := t.total fun e => if p e.1 then e.2 else 0

/-- What a list adds under a condition. -/
def listed (p : κ → Bool) (l : List (κ × M)) : M := (l.map fun e => if p e.1 then e.2 else 0).sum

theorem sumOn_eq_listed (p : κ → Bool) (t : Tally κ M) : t.sumOn p = listed p t.rows := rfl

theorem listed_map_key (p : μ → Bool) (f : κ → μ) (l : List (κ × M)) :
    listed p (l.map fun e => (f e.1, e.2)) = listed (fun k => p (f k)) l := by
  simp only [listed, map_map, Function.comp_def]

variable [DecidableEq κ] [DecidableEq μ]

/-- The sum of a key, zero for one that it has not seen. -/
def value (t : Tally κ M) (k : κ) : M := (t.find k).elim 0 Prod.snd

def add (t : Tally κ M) (e : κ × M) : Tally κ M := t.put (e.1, t.value e.1 + e.2)

def addAll (t : Tally κ M) (l : List (κ × M)) : Tally κ M := l.foldl add t

def of (l : List (κ × M)) : Tally κ M := addAll Table.empty l

/-- `GROUP BY`, with the sums of what falls together. -/
def groupBy (f : κ → μ) (t : Tally κ M) : Tally μ M := of (t.rows.map fun e => (f e.1, e.2))

theorem sumOn_add (p : κ → Bool) (t : Tally κ M) (e : κ × M) :
    (t.add e).sumOn p = t.sumOn p + if p e.1 then e.2 else 0 := by
  unfold sumOn add
  rw [Table.total_put]
  cases hf : t.find e.1 with
  | none => by_cases hp : p e.1 <;> simp [value, hf, hp]
  | some b =>
    have hb : b.1 = e.1 := (Table.find_eq_some.mp hf).2
    by_cases hp : p e.1
    · simp only [value, hf, hp, hb, Option.elim_some, if_true]
      abel
    · simp [hp, hb]

theorem sumOn_addAll (p : κ → Bool) (t : Tally κ M) (l : List (κ × M)) :
    (t.addAll l).sumOn p = t.sumOn p + listed p l := by
  induction l generalizing t with
  | nil => simp [addAll, listed]
  | cons e l ih =>
    have := ih (t.add e)
    simp only [addAll, listed, foldl_cons, map_cons, sum_cons] at this ⊢
    rw [this, sumOn_add, add_assoc]

theorem sumOn_of (p : κ → Bool) (l : List (κ × M)) : (of l).sumOn p = listed p l := by
  rw [of, sumOn_addAll]
  simp [sumOn, Table.total, Table.empty]

omit [DecidableEq μ] in
/-- **A tally of tallies**: what a list adds by way of its sums, under other names. -/
theorem listed_rows_of (p : μ → Bool) (f : κ → μ) (l : List (κ × M)) :
    listed p ((of l).rows.map fun e => (f e.1, e.2)) = listed (fun k => p (f k)) l := by
  rw [listed_map_key, ← sumOn_eq_listed, sumOn_of]

theorem value_eq_sumOn (t : Tally κ M) (k : κ) : t.value k = t.sumOn fun i => decide (i = k) := by
  unfold value sumOn Table.find Table.total
  have hn := t.unique
  generalize t.rows = l at hn
  induction l with
  | nil => simp
  | cons e l ih =>
    rw [map_cons, nodup_cons] at hn
    by_cases he : e.1 = k
    · have hz : ∀ b ∈ l, (if b.1 = k then b.2 else 0) = 0 := by
        intro b hb
        rw [if_neg]
        intro h
        exact hn.1 ((h.trans he.symm) ▸ mem_map_of_mem hb)
      simp [he, map_congr_left hz]
    · have := ih hn.2
      simpa [he] using this

omit [DecidableEq κ] in
theorem sumOn_groupBy (p : μ → Bool) (f : κ → μ) (t : Tally κ M) :
    (t.groupBy f).sumOn p = t.sumOn fun k => p (f k) := by
  rw [groupBy, sumOn_of, listed_map_key, sumOn_eq_listed]

theorem mem_keys_of_value_ne {t : Tally κ M} {k : κ} (h : t.value k ≠ 0) : k ∈ t.keys := by
  cases hf : t.find k with
  | none => simp [value, hf] at h
  | some e =>
    obtain ⟨he, rfl⟩ := Table.find_eq_some.mp hf
    exact mem_map_of_mem he

/-- The sums over keys that cover a tally make up its whole. -/
theorem sum_value (t : Tally κ M) {ks : List κ} (hn : ks.Nodup) (h : ∀ k ∈ t.keys, k ∈ ks) :
    (ks.map t.value).sum = t.sumOn fun _ => true := by
  have hall : ∀ l : List (κ × M), (∀ e ∈ l, e.1 ∈ ks) →
      (ks.map fun k => listed (fun i => decide (i = k)) l).sum = listed (fun _ => true) l := by
    intro l hl
    induction l with
    | nil => simp [listed]
    | cons e l ih =>
      have hone : (ks.map fun k => if e.1 = k then e.2 else 0).sum = e.2 := by
        simp only [eq_comm (a := e.1)]
        rw [sum_map_ite_eq, count_eq_one_of_mem hn (hl e mem_cons_self), one_nsmul]
        simp
      have hrest := ih fun b hb => hl b (mem_cons_of_mem _ hb)
      simp only [listed, map_cons, sum_cons, decide_eq_true_eq, if_true] at hrest ⊢
      rw [sum_map_add, hone, hrest]
  have hv : ks.map t.value = ks.map fun k => listed (fun i => decide (i = k)) t.rows :=
    map_congr_left fun k _ => value_eq_sumOn t k
  rw [hv, hall t.rows fun e he => h e.1 (mem_map_of_mem he)]
  rfl

end Tally

/-- A measure to which every step of a fold adds its own part. -/
theorem foldl_measure {σ α M : Type} [AddCommMonoid M] {f : σ → α → σ} {m : σ → M} {g : α → M} {l : List α}
    (h : ∀ a ∈ l, ∀ s, m (f s a) = m s + g a) (s : σ) : m (l.foldl f s) = m s + (l.map g).sum := by
  induction l generalizing s with
  | nil => simp
  | cons a l ih =>
    rw [foldl_cons, ih fun b hb => h b (mem_cons_of_mem a hb), h a mem_cons_self, map_cons,
      sum_cons, add_assoc]

theorem sum_filterMap {α β M : Type} [AddCommMonoid M] (f : α → Option β) (g : β → M) (l : List α) :
    ((l.filterMap f).map g).sum = (l.map fun a => (f a).elim 0 g).sum := by
  induction l with
  | nil => rfl
  | cons a l ih =>
    cases hf : f a with
    | none => simp [hf, ih]
    | some b => simp [hf, ih]

end ControlTower.Data
