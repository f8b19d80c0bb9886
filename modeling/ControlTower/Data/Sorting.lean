import Mathlib.Data.List.Sort

/-! When sorting forgets the order of its input.

Two elements that a preorder puts at the same place keep the order in which they came.
So the sorted list is the same for every order of the input exactly where no two
different elements have the same place. -/
namespace ControlTower.Data
open List
variable {α : Type} {r : α → α → Prop}

/-- Two elements of one place change places in a sorted list. -/
theorem pairwise_swap [IsTrans α r] {before between after : List α} {x y : α}
    (h : (before ++ x :: (between ++ y :: after)).Pairwise r) (hyx : r y x) : (before ++ y :: (between ++ x :: after)).Pairwise r := by
  simp only [pairwise_append, pairwise_cons, mem_cons, mem_append] at h ⊢
  obtain ⟨hbefore, ⟨hx, hbetween, ⟨hy, hafter⟩, hbetweenAfter⟩, hbeforeAfter⟩ := h
  have hxafter : ∀ w ∈ after, r x w := fun w hw => hx w (.inr (.inr hw))
  refine ⟨hbefore, ⟨?_, hbetween, ⟨hxafter, hafter⟩, ?_⟩, ?_⟩
  · rintro z (hz | rfl | hz)
    · exact Trans.trans hyx (hx z (.inl hz))
    · exact hyx
    · exact hy z hz
  · rintro z hz w (rfl | hw)
    · exact Trans.trans (hbetweenAfter z hz y (.inl rfl)) hyx
    · exact hbetweenAfter z hz w (.inr hw)
  · rintro z hz w (rfl | hw | rfl | hw)
    · exact hbeforeAfter z hz w (.inr (.inr (.inl rfl)))
    · exact hbeforeAfter z hz w (.inr (.inl hw))
    · exact hbeforeAfter z hz w (.inl rfl)
    · exact hbeforeAfter z hz w (.inr (.inr (.inr hw)))

variable {l : List α}

theorem exists_split {a b : α} (ha : a ∈ l) (hb : b ∈ l) (hne : a ≠ b) :
    ∃ before between after, l = before ++ a :: (between ++ b :: after) ∨ l = before ++ b :: (between ++ a :: after) := by
  obtain ⟨before, rest, rfl⟩ := append_of_mem ha
  rcases mem_append.mp hb with hb | hb
  · obtain ⟨before, between, rfl⟩ := append_of_mem hb
    exact ⟨before, between, rest, .inr (by simp)⟩
  · obtain ⟨between, after, rfl⟩ := append_of_mem ((mem_cons.mp hb).resolve_left hne.symm)
    exact ⟨before, between, after, .inl rfl⟩

theorem perm_swap {before between after : List α} (x y : α) :
    (before ++ y :: (between ++ x :: after)).Perm (before ++ x :: (between ++ y :: after)) := by
  refine List.Perm.append_left before ?_
  calc (y :: (between ++ x :: after)).Perm (y :: x :: (between ++ after)) := perm_middle.cons y
    _ |>.Perm (x :: y :: (between ++ after)) := List.Perm.swap x y _
    _ |>.Perm (x :: (between ++ y :: after)) := perm_middle.symm.cons x

/-- The first elements of a list are enough for a property that, once lost, stays lost. -/
theorem filter_take {q : α → Bool} (h : l.Pairwise fun a b => q b = true → q a = true) {n : Nat}
    (hn : (l.filter q).length ≤ n) : (l.take n).filter q = l.filter q := by
  induction l generalizing n with
  | nil => rw [take_nil]
  | cons a l ih =>
    obtain ⟨hhead, htail⟩ := pairwise_cons.mp h
    cases ha : q a with
    | true =>
      rw [filter_cons_of_pos ha, length_cons] at hn
      obtain ⟨n, rfl⟩ := Nat.exists_eq_add_one.mpr (Nat.zero_lt_of_lt hn)
      rw [take_succ_cons, filter_cons_of_pos ha, filter_cons_of_pos ha,
        ih htail (Nat.le_of_succ_le_succ hn)]
    | false =>
      have hnone : (a :: l).filter q = [] := by
        refine filter_eq_nil_iff.mpr fun b hb hqb => ?_
        rcases mem_cons.mp hb with rfl | hb
        · simp [ha] at hqb
        · simp [ha] at hhead
          simp [hhead b hb] at hqb
      exact ((take_sublist n _).filter q).eq_of_length_le (by simp [hnone])

/-- What has a property stands at the end of a list when nothing without it stands behind. -/
theorem filter_not_append_filter {p : α → Bool} (h : l.Pairwise fun a b => p a → p b) :
    (l.filter fun a => !p a) ++ l.filter p = l := by
  induction l with
  | nil => rfl
  | cons a l ih =>
    obtain ⟨hhead, htail⟩ := pairwise_cons.mp h
    cases ha : p a with
    | false => simp [ha, ih htail]
    | true =>
      have hall : ∀ b ∈ a :: l, p b := forall_mem_cons.mpr ⟨ha, fun b hb => hhead b hb ha⟩
      rw [filter_eq_self.mpr hall, filter_eq_nil_iff.mpr fun b hb => by simp [hall b hb],
        nil_append]

/-- What a sorted list holds up to a key comes before what it holds past it. -/
theorem filter_le_append_filter_lt {κ : Type} [LinearOrder κ] (key : α → κ)
    (h : l.Pairwise fun a b => key a ≤ key b) (k : κ) :
    (l.filter fun a => key a ≤ k) ++ (l.filter fun a => k < key a) = l := by
  have hsplit := filter_not_append_filter (p := fun a => decide (k < key a))
    (h.imp fun hle ha => decide_eq_true ((of_decide_eq_true ha).trans_le hle))
  simpa only [← decide_not, not_lt] using hsplit

/-- Lists that are sorted by their keys, no two alike, are the same when they have the same elements. -/
theorem eq_of_pairwise_lt {κ : Type} [LinearOrder κ] (key : α → κ) {l l' : List α} (h : l.Pairwise fun a b => key a < key b)
    (h' : l'.Pairwise fun a b => key a < key b) (hmem : ∀ a, a ∈ l ↔ a ∈ l') : l = l' := by
  have hnodup : ∀ {l : List α}, (l.Pairwise fun a b => key a < key b) → l.Nodup := fun h => h.imp fun hlt heq => absurd (heq ▸ hlt) (lt_irrefl _)
  have hperm : l.Perm l' := (perm_ext_iff_of_nodup (hnodup h) (hnodup h')).mpr hmem
  exact hperm.eq_of_pairwise (fun a b _ _ hab hba => absurd hba (lt_asymm hab)) h h'

/-- A list without two alike keys, the greatest first, is strictly sorted from its end on. -/
theorem reverse_insertionSort_lt {κ : Type} [LinearOrder κ] (key : α → κ) (h : l.Pairwise fun a b => key a ≠ key b) :
    (l.insertionSort fun a b => key a ≥ key b).reverse.Pairwise fun a b => key a < key b := by
  have hdistinct := (perm_insertionSort (fun a b => key a ≥ key b) l).symm.pairwise h Ne.symm
  have hsorted : (l.insertionSort fun a b => key a ≥ key b).Pairwise fun a b => key a ≥ key b :=
    @pairwise_insertionSort α _ _ ⟨fun a b => le_total (key b) (key a)⟩ ⟨fun _ _ _ hab hbc => le_trans hbc hab⟩ l
  rw [pairwise_reverse]
  exact (hsorted.and hdistinct).imp fun hab => lt_of_le_of_ne hab.1 (Ne.symm hab.2)

/-- **Sorting forgets the order of its input exactly where no two elements have one place.** -/
theorem insertionSort_eq_iff [DecidableRel r] [Std.Total r] [IsTrans α r] (l : List α) :
    (∀ l' : List α, l'.Perm l → l'.insertionSort r = l.insertionSort r) ↔ ∀ a ∈ l, ∀ b ∈ l, r a b → r b a → a = b := by
  have hmem : ∀ {a}, a ∈ l.insertionSort r ↔ a ∈ l := mem_insertionSort r
  constructor
  · intro hsame a ha b hb hab hba
    by_contra hne
    have hsorted := pairwise_insertionSort r l
    have hperm := perm_insertionSort r l
    -- with the two in each other's place the list is still sorted
    obtain ⟨before, between, after, hsplit⟩ := exists_split (hmem.mpr ha) (hmem.mpr hb) hne
    have hswap : ∀ x y, r y x → x ≠ y → l.insertionSort r ≠ before ++ x :: (between ++ y :: after) := by
      intro x y hyx hxy hsplit
      have hswapped := pairwise_swap (hsplit ▸ hsorted) hyx
      have hback := hsame _ ((perm_swap x y).trans (hsplit ▸ hperm))
      rw [hswapped.insertionSort_eq, hsplit, append_cancel_left_eq, List.cons.injEq] at hback
      exact hxy hback.1.symm
    rcases hsplit with hsplit | hsplit
    · exact hswap a b hba hne hsplit
    · exact hswap b a hab (Ne.symm hne) hsplit
  · intro hanti l' hperm
    have hsort := (perm_insertionSort r l').trans (hperm.trans (perm_insertionSort r l).symm)
    refine hsort.eq_of_pairwise (fun a b ha hb => ?_) (pairwise_insertionSort r l') (pairwise_insertionSort r l)
    exact hanti a (hperm.mem_iff.mp ((mem_insertionSort r).mp ha)) b (hmem.mp hb)

end ControlTower.Data
