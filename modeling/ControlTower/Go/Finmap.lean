import Mathlib.Data.Finmap
import Mathlib.Data.Finset.Max

/-! Finite maps beyond Mathlib's `Finmap`: changing every value in place, and the
keys of an insertion. -/
namespace Finmap
open Finmap

universe u v w
variable {α : Type u} {β : α → Type v} {γ : α → Type w}

/-- Every value replaced by a function of its key and itself; the keys stay. -/
def mapVals (f : ∀ a, β a → γ a) (s : Finmap β) : Finmap γ :=
  ⟨s.entries.map fun e => ⟨e.1, f e.1 e.2⟩, by
    have hk : (s.entries.map fun e => (⟨e.1, f e.1 e.2⟩ : Sigma γ)).keys = s.entries.keys := by
      simp [Multiset.keys, Multiset.map_map]
    rw [← Multiset.nodup_keys, hk, Multiset.nodup_keys]
    exact s.nodupKeys⟩

@[simp] theorem keys_mapVals (f : ∀ a, β a → γ a) (s : Finmap β) : (s.mapVals f).keys = s.keys := by
  apply Finset.val_injective
  simp [Finmap.keys, mapVals, Multiset.keys, Multiset.map_map]

@[simp] theorem mem_mapVals (f : ∀ a, β a → γ a) (s : Finmap β) (a : α) :
    a ∈ s.mapVals f ↔ a ∈ s := by
  rw [← mem_keys, keys_mapVals, mem_keys]

variable [DecidableEq α]

@[simp] theorem lookup_mapVals (f : ∀ a, β a → γ a) (s : Finmap β) (a : α) :
    (s.mapVals f).lookup a = (s.lookup a).map (f a) := by
  cases h : s.lookup a with
  | none =>
    rw [lookup_eq_none] at h
    simpa [lookup_eq_none] using h
  | some b =>
    rw [lookup_eq_some_iff] at h
    rw [Option.map_some, lookup_eq_some_iff]
    exact Multiset.mem_map.mpr ⟨⟨a, b⟩, h, rfl⟩

theorem keys_insert (s : Finmap β) (a : α) (b : β a) :
    (s.insert a b).keys = Insert.insert a s.keys := by
  ext x
  rw [mem_keys, mem_insert, Finset.mem_insert, mem_keys]

end Finmap
