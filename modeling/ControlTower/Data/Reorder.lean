import Mathlib.Logic.Function.Basic

/-! Entries that are numbered in one order and arrive in another.

A buffer folds the entries in the order of their numbers as far as they have
arrived and holds the others. A scan goes on from there without waiting: it folds
what is held, and begins anew after every number that is missing. What a scan finds
is a block of entries that have all arrived (`scan_block`), and a scan that finds
nothing has looked at every beginning of the whole order (`scan_none`). -/
namespace ControlTower.Data.Reorder
open List Function

variable {α σ : Type}

/-- The entries stand one after the other from number `k` on. -/
def Stands (entries : Nat → Option α) (k : Nat) : List α → Prop
  | [] => True
  | a :: as => entries k = some a ∧ Stands entries (k + 1) as

section Stands
variable {entries entries' : Nat → Option α} {k : Nat} {as bs : List α}

theorem stands_append : Stands entries k (as ++ bs) ↔ Stands entries k as ∧ Stands entries (k + as.length) bs := by
  induction as generalizing k with
  | nil => simp [Stands]
  | cons a as ih =>
    simp only [cons_append, Stands, ih, length_cons, and_assoc]
    rw [show k + 1 + as.length = k + (as.length + 1) by omega]

theorem Stands.congr (h : ∀ i, k ≤ i → i < k + as.length → entries i = entries' i) (hs : Stands entries k as) :
    Stands entries' k as := by
  induction as generalizing k with
  | nil => trivial
  | cons a as ih =>
    rw [length_cons] at h
    exact ⟨(h k (by omega) (by omega)).symm.trans hs.1, ih (fun i hi hl => h i (by omega) (by omega)) hs.2⟩

/-- From one number on there is one list of each length. -/
theorem Stands.split (ha : Stands entries k as) (hb : Stands entries k bs) (hl : as.length ≤ bs.length) :
    ∃ cs, bs = as ++ cs := by
  induction as generalizing k bs with
  | nil => exact ⟨bs, rfl⟩
  | cons a as ih =>
    cases bs with
    | nil => simp at hl
    | cons b bs =>
      obtain ⟨cs, hcs⟩ := ih ha.2 hb.2 (by simpa using hl)
      have hab : a = b := Option.some.inj (ha.1.symm.trans hb.1)
      exact ⟨cs, by rw [hab, hcs]; rfl⟩

theorem Stands.isSome (hs : Stands entries k as) {i : Nat} (hk : k ≤ i) (hi : i < k + as.length) :
    (entries i).isSome := by
  induction as generalizing k with
  | nil =>
    rw [length_nil] at hi
    omega
  | cons a as ih =>
    rw [length_cons] at hi
    rcases Nat.eq_or_lt_of_le hk with rfl | hlt
    · rw [hs.1]
      rfl
    · exact ih hs.2 hlt (by omega)

/-- The last entry of a block. -/
theorem Stands.last {a : α} (h : Stands entries k (as ++ [a])) : entries (k + as.length) = some a :=
  (stands_append.mp h).2.1

end Stands

variable (add : σ → α → σ) (trips : σ → Bool) (zero : σ)

/-- The first entry from number `i` on, of `n` numbers, that trips the fold. A number
that is missing begins the fold anew. -/
def scan (entries : Nat → Option α) : Nat → Nat → σ → Option (σ × α)
  | 0, _, _ => none
  | n + 1, i, acc =>
    match entries i with
    | none => scan entries n (i + 1) zero
    | some a => if trips (add acc a) then some (add acc a, a) else scan entries n (i + 1) (add acc a)

structure Buffer (α σ : Type) where
  folded : Nat
  pending : Nat → Option α
  acc : σ

/-- Fold what stands at the fold position, at most `n` entries. -/
def drain : Nat → Buffer α σ → Buffer α σ
  | 0, b => b
  | n + 1, b =>
    match b.pending b.folded with
    | none => b
    | some a => drain n ⟨b.folded + 1, Function.update b.pending b.folded none, add b.acc a⟩

/-- The buffer after these entries have arrived. -/
structure Follows (b : Buffer α σ) (arrived : Nat → Option α) : Prop where
  read : ∃ as, as.length = b.folded ∧ Stands arrived 0 as ∧ b.acc = as.foldl add zero
  held : ∀ i, b.folded ≤ i → b.pending i = arrived i

/-- No beginning of the order that has arrived, of at most `n` entries, trips. -/
def QuietTo (arrived : Nat → Option α) (n : Nat) : Prop :=
  ∀ as, as ≠ [] → as.length ≤ n → Stands arrived 0 as → trips (as.foldl add zero) = false

variable {add trips zero} {entries arrived arrived' : Nat → Option α} {b : Buffer α σ} {n i : Nat} {acc : σ}

theorem scan_sound {f : σ} {a : α} (h : scan add trips zero entries n i acc = some (f, a)) :
    trips f = true ∧
      ((∃ as, Stands entries i (as ++ [a]) ∧ f = (as ++ [a]).foldl add acc) ∨
        ∃ k as, i < k ∧ Stands entries k (as ++ [a]) ∧ f = (as ++ [a]).foldl add zero) := by
  induction n generalizing i acc with
  | zero => cases h
  | succ n ih =>
    rw [scan] at h
    cases he : entries i with
    | none =>
      simp only [he] at h
      obtain ⟨ht, ⟨as, hs, hf⟩ | ⟨k, as, hk, hs, hf⟩⟩ := ih h
      · exact ⟨ht, .inr ⟨i + 1, as, by omega, hs, hf⟩⟩
      · exact ⟨ht, .inr ⟨k, as, by omega, hs, hf⟩⟩
    | some c =>
      simp only [he] at h
      split at h
      · rename_i htrips
        cases h
        exact ⟨htrips, .inl ⟨[], ⟨he, trivial⟩, rfl⟩⟩
      · obtain ⟨ht, ⟨as, hs, hf⟩ | ⟨k, as, hk, hs, hf⟩⟩ := ih h
        · exact ⟨ht, .inl ⟨c :: as, ⟨he, hs⟩, hf⟩⟩
        · exact ⟨ht, .inr ⟨k, as, by omega, hs, hf⟩⟩

theorem scan_complete (h : scan add trips zero entries n i acc = none) {as : List α} (hne : as ≠ [])
    (hl : as.length ≤ n) (hs : Stands entries i as) : trips (as.foldl add acc) = false := by
  induction n generalizing i acc as with
  | zero => exact absurd (eq_nil_of_length_eq_zero (by omega)) hne
  | succ n ih =>
    cases as with
    | nil => exact absurd rfl hne
    | cons a as =>
      rw [scan] at h
      simp only [hs.1] at h
      split at h
      · cases h
      · rename_i htrips
        by_cases hnil : as = []
        · subst hnil
          simpa using htrips
        · exact ih h hnil (by simpa using hl) hs.2

variable (hb : Follows add zero b arrived)
include hb

/-- **What a scan finds**: a block that has arrived, and the fold of it. -/
theorem scan_block {f : σ} {a : α} (h : scan add trips zero b.pending n b.folded b.acc = some (f, a)) :
    trips f = true ∧ ∃ k as, Stands arrived k (as ++ [a]) ∧ f = (as ++ [a]).foldl add zero := by
  obtain ⟨read, hlen, hread, hacc⟩ := hb.read
  obtain ⟨ht, ⟨as, hs, hf⟩ | ⟨k, as, hk, hs, hf⟩⟩ := scan_sound h
  · have hs' : Stands arrived b.folded (as ++ [a]) := hs.congr fun i hi _ => hb.held i hi
    refine ⟨ht, 0, read ++ as, ?_, ?_⟩
    · rw [append_assoc, stands_append, hlen, Nat.zero_add]
      exact ⟨hread, hs'⟩
    · rw [append_assoc, foldl_append, ← hacc, hf]
  · exact ⟨ht, k, as, hs.congr fun i hi _ => hb.held i (by omega), hf⟩

omit hb in
theorem Stands.length_le {k bound : Nat} {as : List α} (hs : Stands arrived k as)
    (hbound : ∀ i, bound ≤ i → arrived i = none) (hne : as ≠ []) : k + as.length ≤ bound := by
  obtain ⟨as, a, rfl⟩ := eq_nil_or_concat as |>.resolve_left hne
  rw [concat_eq_append] at hs ⊢
  by_contra hlt
  rw [length_append, length_singleton] at hlt
  have := hs.last
  rw [hbound _ (by omega)] at this
  cases this

/-- **What a scan that finds nothing has seen**: every beginning of the order. -/
theorem scan_none (hquiet : QuietTo add trips zero arrived b.folded)
    (hbound : ∀ i, b.folded + n ≤ i → arrived i = none)
    (h : scan add trips zero b.pending n b.folded b.acc = none) (m : Nat) : QuietTo add trips zero arrived m := by
  intro as hne _ hs
  obtain ⟨read, hlen, hread, hacc⟩ := hb.read
  rcases Nat.lt_or_ge b.folded as.length with hlt | hle
  · obtain ⟨cs, rfl⟩ := hread.split hs (by omega)
    have hcs : cs ≠ [] := fun h => by simp [h] at hlt; omega
    have hstand : Stands arrived b.folded cs := by
      have := (stands_append.mp hs).2
      rwa [hlen, Nat.zero_add] at this
    have hlc := hstand.length_le hbound hcs
    rw [foldl_append, ← hacc]
    exact scan_complete h hcs (by omega) (hstand.congr fun i hi _ => (hb.held i hi).symm)
  · exact hquiet as hne hle hs

/-- Folding an entry that stands at the fold position. -/
theorem Follows.fold {a : α} (h : b.pending b.folded = some a) :
    Follows add zero ⟨b.folded + 1, Function.update b.pending b.folded none, add b.acc a⟩ arrived where
  read := by
    obtain ⟨read, hlen, hread, hacc⟩ := hb.read
    refine ⟨read ++ [a], by simp [hlen], ?_, by rw [foldl_append, ← hacc]; rfl⟩
    rw [stands_append, hlen, Nat.zero_add]
    exact ⟨hread, (hb.held b.folded (Nat.le_refl _)).symm.trans h, trivial⟩
  held i hi := by
    have hne : i ≠ b.folded := by
      have : b.folded + 1 ≤ i := hi
      omega
    show Function.update b.pending b.folded none i = arrived i
    rw [update_of_ne hne]
    exact hb.held i (by have : b.folded + 1 ≤ i := hi; omega)

theorem drain_follows : Follows add zero (drain add n b) arrived := by
  induction n generalizing b with
  | zero => exact hb
  | succ n ih =>
    rw [drain]
    cases h : b.pending b.folded with
    | none => exact hb
    | some a => exact ih (hb.fold h)

/-- An entry arrives at or after the fold position. -/
theorem Follows.arrive {a : α} (hi : b.folded ≤ i) :
    Follows add zero { b with pending := Function.update b.pending i (some a) }
      (Function.update arrived i (some a)) where
  read := by
    obtain ⟨read, hlen, hread, hacc⟩ := hb.read
    refine ⟨read, hlen, hread.congr fun j _ hj => ?_, hacc⟩
    rw [update_of_ne (by omega)]
  held j hj := by
    by_cases hji : j = i
    · subst hji
      simp
    · simp only [update_of_ne hji]
      exact hb.held j hj

omit hb

theorem QuietTo.arrive {a : α} (h : QuietTo add trips zero arrived n) (hi : n ≤ i) :
    QuietTo add trips zero (Function.update arrived i (some a)) n := by
  intro as hne hl hs
  refine h as hne hl (hs.congr fun j _ hj => ?_)
  rw [update_of_ne (by omega)]

end ControlTower.Data.Reorder
