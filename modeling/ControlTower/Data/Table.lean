import Mathlib.Algebra.BigOperators.Group.List.Basic
import Mathlib.Data.List.Nodup
import Mathlib.Data.List.Sort

/-! Tables with a unique key, read in order and summed up.

A table holds at most one row of a key; a row is put in the place of the one that
has its key. A weight of rows has a total over the table, and what a put does to
every total is one equation. A scan is the rows of a condition in the order of
their positions; what it has read so far is exactly what stands up to the last
row it read. -/
namespace ControlTower.Data
open List

structure Table {α ι : Type} (key : α → ι) where
  rows : List α
  unique : (rows.map key).Nodup

namespace Table
variable {α ι π M : Type} {key : α → ι}

instance : Membership α (Table key) := ⟨fun t a => a ∈ t.rows⟩

instance [DecidableEq α] (a : α) (t : Table key) : Decidable (a ∈ t) := inferInstanceAs (Decidable (a ∈ t.rows))

theorem mem_def {t : Table key} {a : α} : a ∈ t ↔ a ∈ t.rows := Iff.rfl

def empty : Table key := ⟨[], nodup_nil⟩

theorem eq_of_key {t : Table key} {a b : α} (ha : a ∈ t) (hb : b ∈ t) (h : key a = key b) : a = b :=
  inj_on_of_nodup_map t.unique ha hb h

theorem nodup (t : Table key) : t.rows.Nodup := t.unique.of_map

section Put
variable [DecidableEq ι]

def find (t : Table key) (i : ι) : Option α := t.rows.find? fun a => key a == i

variable {t : Table key}

theorem find_eq_some {i : ι} {a : α} : t.find i = some a ↔ a ∈ t ∧ key a = i := by
  constructor
  · intro h
    exact ⟨mem_of_find?_eq_some h, by simpa using List.find?_some h⟩
  · rintro ⟨ha, rfl⟩
    cases hf : t.find (key a) with
    | none => exact absurd (List.find?_eq_none.mp hf a ha) (by simp)
    | some b =>
      have hb : key b = key a := by simpa using List.find?_some hf
      rw [eq_of_key (mem_of_find?_eq_some hf) ha hb]

theorem find_eq_none {i : ι} : t.find i = none ↔ ∀ a ∈ t, key a ≠ i := by
  simp [find, mem_def]

/-- The row in the place of the one that has its key. -/
def put (t : Table key) (a : α) : Table key where
  rows := a :: t.rows.filter fun b => key b ≠ key a
  unique := by
    refine nodup_cons.mpr ⟨?_, t.unique.sublist (filter_sublist.map key)⟩
    intro h
    obtain ⟨b, hb, hk⟩ := mem_map.mp h
    have := (mem_filter.mp hb).2
    simp [hk] at this

theorem mem_put {a b : α} : b ∈ t.put a ↔ b = a ∨ (b ∈ t ∧ key b ≠ key a) := by
  simp [mem_def, put]

theorem find_put (t : Table key) (a : α) (i : ι) :
    (t.put a).find i = if key a = i then some a else t.find i := by
  split
  next h => exact find_eq_some.mpr ⟨mem_put.mpr (.inl rfl), h⟩
  next h =>
    apply Option.ext
    intro b
    rw [find_eq_some, find_eq_some, mem_put]
    constructor
    · rintro ⟨rfl | hb, hk⟩
      · exact absurd hk h
      · exact ⟨hb.1, hk⟩
    · rintro ⟨hb, rfl⟩
      exact ⟨.inr ⟨hb, Ne.symm h⟩, rfl⟩

end Put

/-- The rows of a condition. -/
def keep (t : Table key) (p : α → Bool) : Table key where
  rows := t.rows.filter p
  unique := t.unique.sublist (filter_sublist.map key)

variable {t : Table key}

theorem mem_keep {p : α → Bool} {a : α} : a ∈ t.keep p ↔ a ∈ t ∧ p a = true := by
  simp [mem_def, keep]

/-- A condition that only rows of one key meet finds at most one row. -/
theorem length_keep_le_one {p : α → Bool}
    (h : ∀ a ∈ t, ∀ b ∈ t, p a = true → p b = true → key a = key b) : (t.keep p).rows.length ≤ 1 := by
  have hn := (t.keep p).nodup
  match hr : (t.keep p).rows with
  | [] => simp
  | [a] => simp
  | a :: b :: rest =>
    have ha := mem_keep.mp (show a ∈ t.keep p by simp [mem_def, hr])
    have hb := mem_keep.mp (show b ∈ t.keep p by simp [mem_def, hr])
    rw [hr, eq_of_key ha.1 hb.1 (h a ha.1 b hb.1 ha.2 hb.2)] at hn
    simp at hn

/-- An update of every row that leaves the keys alone. -/
def modify (t : Table key) (f : α → α) (h : ∀ a, key (f a) = key a) : Table key where
  rows := t.rows.map f
  unique := by simpa [Function.comp_def, h] using t.unique

theorem find_modify [DecidableEq ι] (t : Table key) (f : α → α) (h : ∀ a, key (f a) = key a) (i : ι) :
    (t.modify f h).find i = (t.find i).map f := by
  simp only [find, modify, List.find?_map, Function.comp_def, h]

theorem mem_modify {f : α → α} {h : ∀ a, key (f a) = key a} {b : α} :
    b ∈ t.modify f h ↔ ∃ a ∈ t, f a = b := mem_map

/-- A row with a new key, after the others. -/
def append (t : Table key) (a : α) (h : ∀ b ∈ t, key b ≠ key a) : Table key where
  rows := t.rows ++ [a]
  unique := by
    rw [map_append, map_singleton]
    refine List.Nodup.append t.unique (nodup_singleton _) (disjoint_singleton.mpr fun hm => ?_)
    obtain ⟨b, hb, hk⟩ := mem_map.mp hm
    exact h b hb hk

theorem mem_append {a b : α} {h : ∀ b ∈ t, key b ≠ key a} : b ∈ t.append a h ↔ b ∈ t ∨ b = a := by
  simp [mem_def, append]

/-- A sum over the rows, with the row of one key told apart. -/
theorem sum_rows [AddCommMonoid M] [DecidableEq ι] (t : Table key) (i : ι) (w : α → M) :
    (t.rows.map w).sum = (t.find i).elim 0 w + ((t.rows.filter fun b => key b ≠ i).map w).sum := by
  unfold find
  have hn := t.unique
  generalize t.rows = l at hn
  induction l with
  | nil => simp
  | cons b l ih =>
    rw [map_cons, nodup_cons] at hn
    by_cases hb : key b = i
    · have hall : l.filter (fun c => key c ≠ i) = l := by
        refine filter_eq_self.mpr fun c hc => ?_
        have hc' : key c ∈ l.map key := mem_map_of_mem hc
        simp only [ne_eq, decide_not, Bool.not_eq_true', decide_eq_false_iff_not]
        intro h
        exact hn.1 (hb ▸ h ▸ hc')
      rw [filter_cons_of_neg (by simpa using hb), hall, List.find?_cons_of_pos (by simp [hb])]
      simp
    · rw [filter_cons_of_pos (by simpa using hb), map_cons, sum_cons, ih hn.2,
        List.find?_cons_of_neg (by simp [hb]), map_cons, sum_cons, add_left_comm]

section Total
variable [AddCommGroup M]

def total (w : α → M) (t : Table key) : M := (t.rows.map w).sum

variable {t : Table key}

theorem total_congr {w w' : α → M} (h : ∀ a ∈ t, w a = w' a) : t.total w = t.total w' := by
  unfold total
  rw [map_congr_left h]

theorem total_zero {w : α → M} (h : ∀ a ∈ t, w a = 0) : t.total w = 0 := by
  unfold total
  rw [map_congr_left h]
  simp

theorem total_add (w w' : α → M) : t.total (fun a => w a + w' a) = t.total w + t.total w' := sum_map_add

/-- The weight of one row of the table. -/
theorem total_single [DecidableEq α] {a : α} (ha : a ∈ t) (w : α → M) :
    t.total (fun b => if b = a then w b else 0) = w a := by
  unfold total
  have hn := t.nodup
  have hl : a ∈ t.rows := ha
  generalize t.rows = l at hn hl
  induction l with
  | nil => cases hl
  | cons b l ih =>
    rw [nodup_cons] at hn
    by_cases hb : b = a
    · have hz : ∀ c ∈ l, (if c = a then w c else 0) = 0 := by
        intro c hc
        rw [if_neg]
        intro h
        exact hn.1 (hb ▸ h ▸ hc)
      simp [hb, map_congr_left hz]
    · have hl' : a ∈ l := (mem_cons.mp hl).resolve_left fun h => hb h.symm
      simp [hb, ih hn.2 hl']

/-- **What a put does to a total.** -/
theorem total_put [DecidableEq ι] (t : Table key) (a : α) (w : α → M) :
    (t.put a).total w = t.total w - (t.find (key a)).elim 0 w + w a := by
  have hrest := t.sum_rows (key a) w
  simp only [total, put, map_cons, sum_cons]
  rw [hrest, add_sub_cancel_left, add_comm]

end Total

section Scan
variable [LinearOrder π] (pos : α → π)

/-- The rows of a condition, in order. -/
def scan (t : Table key) (p : α → Bool) : List α :=
  (t.rows.filter p).insertionSort fun a b => pos a ≤ pos b

variable {pos}

variable {t : Table key} {p : α → Bool}

theorem mem_scan {a : α} : a ∈ t.scan pos p ↔ a ∈ t ∧ p a = true := by
  simp [scan, mem_def]

theorem scan_sorted (hpos : ∀ a b, pos a = pos b → key a = key b) (t : Table key) (p : α → Bool) :
    (t.scan pos p).Pairwise fun a b => pos a < pos b := by
  have hle : (t.scan pos p).Pairwise fun a b => pos a ≤ pos b := pairwise_insertionSort _ _
  have hperm : (t.scan pos p).Perm (t.rows.filter p) := perm_insertionSort _ _
  have hne : (t.scan pos p).Pairwise fun a b => key a ≠ key b :=
    pairwise_map.mp ((hperm.map key).nodup_iff.mpr (t.unique.sublist (filter_sublist.map key)))
  refine (hle.and hne).imp fun h => ?_
  exact lt_of_le_of_ne h.1 fun heq => h.2 (hpos _ _ heq)

/-- A scan is the only list of its rows that is in order. -/
theorem scan_eq (hpos : ∀ a b, pos a = pos b → key a = key b) {l : List α}
    (hl : l.Pairwise fun a b => pos a < pos b) (hmem : ∀ a, a ∈ l ↔ a ∈ t ∧ p a = true) : t.scan pos p = l := by
  refine List.Pairwise.eq_of_mem_iff (scan_sorted hpos t p) hl fun a => ?_
  rw [mem_scan, hmem]

theorem sum_scan [AddCommGroup M] (t : Table key) (p : α → Bool) (w : α → M) :
    ((t.scan pos p).map w).sum = t.total fun a => if p a then w a else 0 := by
  have hperm : (t.scan pos p).Perm (t.rows.filter p) := perm_insertionSort _ _
  rw [(hperm.map w).sum_eq]
  unfold total
  induction t.rows with
  | nil => rfl
  | cons a l ih => cases hp : p a <;> simp [hp, ih]

variable {read rest : List α}

/-- Of a scan that has read `read`, with `last` at its end, exactly `read` stands up to
`last`. -/
theorem mem_read_iff (hpos : ∀ a b, pos a = pos b → key a = key b)
    {last : α} (h : t.scan pos p = read ++ last :: rest) {a : α}
    (ha : a ∈ t.scan pos p) : pos a ≤ pos last ↔ a ∈ read ++ [last] := by
  have hs := scan_sorted hpos t p
  rw [h] at hs ha
  rw [pairwise_append, pairwise_cons] at hs
  rcases List.mem_append.mp ha with hr | hr
  · exact ⟨fun _ => by simp [hr], fun _ => (hs.2.2 a hr last mem_cons_self).le⟩
  · rcases mem_cons.mp hr with rfl | hr
    · simp
    · have hlt := hs.2.1.1 a hr
      constructor
      · intro hle
        exact absurd hle (not_le.mpr hlt)
      · intro hm
        rcases List.mem_append.mp hm with hm | hm
        · exact (hs.2.2 a hm last mem_cons_self).le
        · exact (mem_singleton.mp hm ▸ le_refl _)

theorem le_last (hpos : ∀ a b, pos a = pos b → key a = key b) {a last : α}
    (h : (t.scan pos p).getLast? = some last) (ha : a ∈ t.scan pos p) : pos a ≤ pos last := by
  obtain ⟨read, hr⟩ := List.getLast?_eq_some_iff.mp h
  exact (mem_read_iff hpos hr ha).mpr (hr ▸ ha)

/-- What stands after the last row that was read is what was left. -/
theorem scan_rest (hpos : ∀ a b, pos a = pos b → key a = key b) {c : π}
    (h : t.scan pos (fun a => p a && decide (c < pos a)) = read ++ rest) :
    t.scan pos (fun a => p a && decide ((read.getLast?.map pos).getD c < pos a)) = rest := by
  rcases eq_nil_or_concat' read with rfl | ⟨read, last, rfl⟩
  · exact h
  · have hsorted := scan_sorted hpos t fun a => p a && decide (c < pos a)
    rw [h] at hsorted
    have hsplit : t.scan pos (fun a => p a && decide (c < pos a)) = read ++ last :: rest := by simp [h]
    have hlast : c < pos last := by
      have hm : last ∈ t.scan pos fun a => p a && decide (c < pos a) := by simp [h]
      have hp := (mem_scan.mp hm).2
      rw [Bool.and_eq_true, decide_eq_true_eq] at hp
      exact hp.2
    refine scan_eq hpos (pairwise_append.mp hsorted).2.1 fun a => ?_
    rw [List.getLast?_append_cons, List.getLast?_singleton, Option.map_some, Option.getD_some]
    constructor
    · intro ha
      have hm : a ∈ t.scan pos fun a => p a && decide (c < pos a) := by simp [h, ha]
      have hlt := (pairwise_append.mp hsorted).2.2 last (by simp) a ha
      obtain ⟨ht, hp⟩ := mem_scan.mp hm
      rw [Bool.and_eq_true] at hp
      exact ⟨ht, by simp [hp.1, hlt]⟩
    · rintro ⟨ht, hp⟩
      rw [Bool.and_eq_true, decide_eq_true_eq] at hp
      have hm : a ∈ t.scan pos fun a => p a && decide (c < pos a) :=
        mem_scan.mpr ⟨ht, by simp [hp.1, hlast.trans hp.2]⟩
      have hread := (mem_read_iff hpos hsplit hm).not.mp (not_le.mpr hp.2)
      rw [h] at hm
      exact (List.mem_append.mp hm).resolve_left hread

/-- The total of what a scan has read. -/
theorem sum_read [AddCommGroup M] [DecidableEq α] (h : t.scan pos p = read ++ rest) (w : α → M) :
    (read.map w).sum = t.total fun a => if a ∈ read then w a else 0 := by
  have hnodup : (read ++ rest).Nodup := by
    rw [← h]
    exact (perm_insertionSort _ _).nodup_iff.mpr (t.nodup.filter _)
  have hrest : ∀ a ∈ rest, (if a ∈ read then w a else 0) = 0 := by
    intro a ha
    rw [if_neg fun hr => disjoint_of_nodup_append hnodup hr ha]
  have hread : ∀ a ∈ read, (if a ∈ read then w a else 0) = w a := fun a ha => if_pos ha
  have hscan : (t.total fun a => if a ∈ read then w a else 0) =
      ((t.scan pos p).map fun a => if a ∈ read then w a else 0).sum := by
    rw [sum_scan]
    refine total_congr fun a _ => ?_
    by_cases hr : a ∈ read
    · have hp : p a = true := (mem_scan.mp (h ▸ mem_append_left _ hr)).2
      simp [hp]
    · simp [hr]
  rw [hscan, h, map_append, sum_append, map_congr_left hread, map_congr_left hrest]
  simp

end Scan

end Table

end ControlTower.Data
