import ControlTower.Data.Tally
import Mathlib.Algebra.Group.WithOne.Defs
import Mathlib.Data.List.Induction

/-! Items gathered by key.

A map keeps one value for each key it has seen: the first item of a key makes it, every
other one is added to it. What is gathered under a key depends on the items of the key
alone, in their order; a measure that grows by the same amount with every item has, over
any set of keys, the sum of the items that fall into it. -/
namespace ControlTower.Data
open List

structure Gather (α κ σ : Type) where
  key : α → κ
  first : α → σ
  add : σ → α → σ

namespace Gather
variable {α κ σ M : Type} [DecidableEq κ] (g : Gather α κ σ)

abbrev Groups (κ σ : Type) := Table (Prod.fst : κ × σ → κ)

def step (t : Groups κ σ) (a : α) : Groups κ σ :=
  t.put (g.key a, (t.find (g.key a)).elim (g.first a) fun e => g.add e.2 a)

variable (l : List α)

def groups : Groups κ σ := l.foldl g.step Table.empty

/-- The value of a list of items of one key. -/
def whole : List α → Option σ
  | [] => none
  | a :: rest => some (rest.foldl g.add (g.first a))

/-- The items of a key. -/
def items (k : κ) (l : List α) : List α := l.filter fun a => g.key a = k

theorem items_concat (k : κ) (l : List α) (a : α) : g.items k (l ++ [a]) = g.items k l ++ if g.key a = k then [a] else [] := by
  rw [items, items, filter_append]
  by_cases hk : g.key a = k <;> simp [hk]

omit [DecidableEq κ] in
theorem whole_concat (a : α) : g.whole (l ++ [a]) = some ((g.whole l).elim (g.first a) fun s => g.add s a) := by
  cases l with
  | nil => rfl
  | cons b rest => simp [whole]

omit [DecidableEq κ] in
theorem whole_eq_none {l : List α} : g.whole l = none ↔ l = [] := by
  cases l <;> simp [whole]

theorem groups_concat (a : α) : g.groups (l ++ [a]) = g.step (g.groups l) a := by
  rw [groups, foldl_append]
  rfl

/-- **What is gathered under a key is made of the items of the key.** -/
theorem find_groups (k : κ) : (g.groups l).find k = (g.whole (g.items k l)).map fun s => (k, s) := by
  induction l using List.reverseRecOn with
  | nil => rfl
  | append_singleton l a ih =>
    rw [groups_concat, step, Table.find_put]
    by_cases hk : g.key a = k
    · subst hk
      rw [if_pos rfl, ih, items_concat, if_pos rfl, whole_concat]
      cases g.whole (g.items (g.key a) l) <;> rfl
    · rw [if_neg hk, ih, items_concat, if_neg hk, append_nil]

theorem mem_groups {l : List α} {e : κ × σ} : e ∈ g.groups l ↔ g.whole (g.items e.1 l) = some e.2 := by
  have hfind := g.find_groups l e.1
  constructor
  · intro he
    rw [Table.find_eq_some.mpr ⟨he, rfl⟩, eq_comm, Option.map_eq_some_iff] at hfind
    obtain ⟨s, hs, heq⟩ := hfind
    rw [hs, ← heq]
  · intro hwhole
    rw [hwhole] at hfind
    exact (Table.find_eq_some.mp hfind).1

/-- A group has an item. -/
theorem exists_item {l : List α} {e : κ × σ} (he : e ∈ g.groups l) : ∃ a ∈ l, g.key a = e.1 := by
  have hwhole := g.mem_groups.mp he
  cases hitems : g.items e.1 l with
  | nil => rw [hitems] at hwhole; cases hwhole
  | cons a rest =>
    have ha : a ∈ g.items e.1 l := by rw [hitems]; exact mem_cons_self
    exact ⟨a, (mem_filter.mp ha).1, by simpa using (mem_filter.mp ha).2⟩

theorem exists_group {l : List α} {a : α} (ha : a ∈ l) : ∃ s, (g.key a, s) ∈ g.groups l := by
  have hmem : a ∈ g.items (g.key a) l := mem_filter.mpr ⟨ha, by simp⟩
  cases hwhole : g.whole (g.items (g.key a) l) with
  | none => rw [g.whole_eq_none.mp hwhole] at hmem; cases hmem
  | some s => exact ⟨s, g.mem_groups.mpr hwhole⟩

/-- Lists that give every key the same value give the same groups. -/
theorem groups_perm {l l' : List α} (h : ∀ k, g.whole (g.items k l) = g.whole (g.items k l')) : (g.groups l).rows.Perm (g.groups l').rows := by
  refine (perm_ext_iff_of_nodup (Table.nodup _) (Table.nodup _)).mpr fun e => ?_
  rw [← Table.mem_def, ← Table.mem_def, mem_groups, mem_groups, h]

section Measure
variable [AddCommMonoid M] {m : σ → M} {w : α → M}

/-- A measure of values to which every item adds its own part. -/
structure Measures (m : σ → M) (w : α → M) : Prop where
  first : ∀ a, m (g.first a) = w a
  add : ∀ s a, m (g.add s a) = m s + w a

variable {g}

omit [DecidableEq κ] in
theorem Measures.whole (h : g.Measures m w) {l : List α} {s : σ} (hs : g.whole l = some s) : m s = (l.map w).sum := by
  cases l with
  | nil => cases hs
  | cons a rest =>
    cases hs
    rw [foldl_measure (fun b _ s => h.add s b), h.first, map_cons, sum_cons]

/-- What a group holds is what the items of its key add. -/
theorem Measures.group (h : g.Measures m w) {l : List α} {e : κ × σ} (he : e ∈ g.groups l) :
    m e.2 = (l.map fun a => if g.key a = e.1 then w a else 0).sum := by
  rw [h.whole (g.mem_groups.mp he), items]
  clear he
  induction l with
  | nil => rfl
  | cons a l ih => by_cases ha : g.key a = e.1 <;> simp [ha, ih]

/-- **The groups of a set of keys hold what its items add.** -/
theorem Measures.sum (h : g.Measures m w) (p : κ → Bool) (l : List α) :
    ((g.groups l).rows.map fun e => if p e.1 then m e.2 else 0).sum = (l.map fun a => if p (g.key a) then w a else 0).sum := by
  induction l using List.reverseRecOn with
  | nil => rfl
  | append_singleton l a ih =>
    rw [map_append, sum_append, map_singleton, sum_singleton, ← ih, (g.groups l).sum_rows (g.key a),
      groups_concat, step, Table.put, map_cons, sum_cons, add_right_comm]
    refine congrArg (· + _) ?_
    cases hfind : (g.groups l).find (g.key a) with
    | none => simp [h.first]
    | some e =>
      have hkey : e.1 = g.key a := (Table.find_eq_some.mp hfind).2
      simp only [Option.elim_some, hkey, h.add]
      split
      · rfl
      · simp

end Measure

theorem Measures.total [AddCommGroup M] {m : σ → M} {w : α → M} {g : Gather α κ σ} (h : g.Measures m w) (p : κ → Bool) (l : List α) :
    (g.groups l).total (fun e => if p e.1 then m e.2 else 0) = (l.map fun a => if p (g.key a) then w a else 0).sum :=
  h.sum p l

section Sharing
variable {β μ S : Type} [DecidableEq μ] [AddCommSemigroup S] {key : α → κ} {share : α → S} {l : List α}

/-- Every item adds its share to the value of its key. -/
def sharing (key : α → κ) (share : α → S) : Gather α κ S := ⟨key, share, fun s a => s + share a⟩

/-- The shares of a key, zero standing for none. -/
def shares (key : α → κ) (share : α → S) (k : κ) (l : List α) : WithZero S :=
  (l.map fun a => if key a = k then (share a : WithZero S) else 0).sum

omit [DecidableEq κ] in
theorem sharing_measures (key : α → κ) (share : α → S) :
    (sharing key share).Measures (fun s => (s : WithZero S)) fun a => (share a : WithZero S) where
  first _ := rfl
  add s a := WithZero.coe_add s (share a)

theorem mem_sharing {e : κ × S} : e ∈ (sharing key share).groups l ↔ shares key share e.1 l = e.2 := by
  constructor
  · intro he
    exact ((sharing_measures key share).group he).symm
  · intro hshares
    have hitem : ∃ a ∈ l, key a = e.1 := by
      by_contra hnone
      push Not at hnone
      have hzero : shares key share e.1 l = 0 := by
        rw [shares, map_congr_left fun a ha => if_neg (hnone a ha)]
        simp
      exact WithZero.coe_ne_zero (hshares.symm.trans hzero)
    obtain ⟨a, ha, hkey⟩ := hitem
    obtain ⟨s, hs⟩ := (sharing key share).exists_group ha
    have hkey : (sharing key share).key a = e.1 := hkey
    rw [hkey] at hs
    have hsum : s = e.2 := WithZero.coe_inj.mp (((sharing_measures key share).group hs).trans hshares)
    rwa [hsum] at hs

/-- **Lists with the same shares of every key give the same groups**, whatever their items. -/
theorem sharing_perm {key' : β → κ} {share' : β → S} {l' : List β} (h : ∀ k, shares key share k l = shares key' share' k l') :
    ((sharing key share).groups l).rows.Perm ((sharing key' share').groups l').rows := by
  refine (perm_ext_iff_of_nodup (Table.nodup _) (Table.nodup _)).mpr fun e => ?_
  rw [← Table.mem_def, ← Table.mem_def, mem_sharing, mem_sharing, h]

theorem shares_perm {l' : List α} (h : l.Perm l') (k : κ) : shares key share k l = shares key share k l' := (h.map _).sum_eq

/-- **Groups gathered again.** The groups of the parts of a list, gathered under a coarser
key, are the groups of the list under that key. -/
theorem sharing_regroup (f : κ → μ) {parts : List (List α)} {rows : List (κ × S)}
    (hrows : rows.Perm (parts.flatMap fun part => ((sharing key share).groups part).rows)) (hl : l.Perm parts.flatten) :
    ((sharing (fun e : κ × S => f e.1) Prod.snd).groups rows).rows.Perm ((sharing (fun a => f (key a)) share).groups l).rows := by
  refine sharing_perm fun k => ?_
  rw [shares_perm hrows, shares_perm hl, shares, shares, flatMap_def, map_flatten,
    sum_flatten, map_flatten, sum_flatten, map_map, map_map, map_map]
  refine congrArg List.sum (map_congr_left fun part _ => ?_)
  have hpart := (sharing_measures key share).sum (fun i => decide (f i = k)) part
  simp only [decide_eq_true_eq] at hpart
  exact hpart

end Sharing

section Embedding
variable {α' σ' : Type}

/-- One gather seen through another: items and values of the second stand for items and
values of the first, the value with its key. -/
structure Embeds (g : Gather α κ σ) (g' : Gather α' κ σ') (f : α' → α) (v : κ → σ' → σ) : Prop where
  key : ∀ a, g.key (f a) = g'.key a
  first : ∀ a, g.first (f a) = v (g'.key a) (g'.first a)
  add : ∀ s a, g.add (v (g'.key a) s) (f a) = v (g'.key a) (g'.add s a)

theorem Embeds.groups {g : Gather α κ σ} {g' : Gather α' κ σ'} {f : α' → α} {v : κ → σ' → σ} (h : g.Embeds g' f v) (l : List α') :
    (g.groups (l.map f)).rows = (g'.groups l).rows.map fun e => (e.1, v e.1 e.2) := by
  induction l using List.reverseRecOn with
  | nil => rfl
  | append_singleton l a ih =>
    have hfind : (g.groups (l.map f)).find (g'.key a) = ((g'.groups l).find (g'.key a)).map fun e => (e.1, v e.1 e.2) := by
      rw [Table.find, ih, List.find?_map]
      rfl
    have hvalue : (((g'.groups l).find (g'.key a)).map fun e => (e.1, v e.1 e.2)).elim (g.first (f a)) (fun e => g.add e.2 (f a)) =
        v (g'.key a) (((g'.groups l).find (g'.key a)).elim (g'.first a) fun e => g'.add e.2 a) := by
      cases he : (g'.groups l).find (g'.key a) with
      | none => exact h.first a
      | some e =>
        have hkey : e.1 = g'.key a := (Table.find_eq_some.mp he).2
        simp only [Option.map_some, Option.elim_some, hkey, h.add]
    rw [map_append, map_singleton, groups_concat, groups_concat, step, step, h.key, hfind, hvalue]
    simp only [Table.put, ih, map_cons, filter_map]
    rfl

end Embedding
end Gather
end ControlTower.Data
