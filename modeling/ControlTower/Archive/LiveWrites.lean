import Mathlib.Algebra.Module.Pi
import ControlTower.Archive.LivePages

/-! Raw writes and what they leave to the sums.

A transaction of raw writes collects the changes it makes. For every weight of rows
the total over the date moves by exactly what these changes say, as long as a row too
large to be read back keeps its date; otherwise the date has begun anew. -/
namespace ControlTower.Archive
open Data List Option

variable {C K : Type}

/-! ### The invariant without the sums -/

/-- Where a build begins. -/
def origin : Position := toLex (0, 0)

/-- The part of the invariant that does not speak of sums. -/
structure Sound (day : Day) (s : State C K) : Prop where
  placed : ∀ r ∈ s.table, day.has r = true → origin < r.position
  fresh : ∀ v, s.nextVersion ≤ v → s.sums v = 0
  version : ∀ p, s.live = some p → p.version < s.nextVersion
  transfer : ∀ l, s.largeLive = some l → l.version < s.nextVersion
  /-- A cursor without a bound is one that has not begun. -/
  unbounded : ∀ p, s.live = some p → p.upperCreated < 0 → p = .start p.version
  /-- The row of a transfer that is not outdated is as it was, and still waits for it. -/
  waiting : ∀ p l, s.live = some p → s.largeLive = some l → l.version = p.version →
    p.ready = false ∧ 0 ≤ p.upperCreated ∧ l.record ∈ s.table ∧ p.wants day l.record = true ∧
      maxPageBytes < l.record.size

variable {s : State C K}

theorem invalidateLive_none (h : s.live = none) : s.invalidateLive = s := by
  simp [State.invalidateLive, h]

theorem invalidateLive_some {p : LiveCursor} (h : s.live = some p) :
    s.invalidateLive = {s with live := some (.start s.nextVersion), nextVersion := s.nextVersion + 1} := by
  simp [State.invalidateLive, h]

/-- A date that begins anew under a version of its own. -/
theorem Sound.restart {day : Day} (h : Sound day s) :
    Sound day {s with live := some (.start s.nextVersion), nextVersion := s.nextVersion + 1} where
  placed := h.placed
  fresh v hv := h.fresh v (Nat.le_of_succ_le hv)
  version := by
    rintro _ ⟨⟩
    exact Nat.lt_succ_self _
  transfer l hl := Nat.lt_succ_of_lt (h.transfer l hl)
  unbounded := by
    rintro _ ⟨⟩ _
    rfl
  waiting := by
    rintro _ l ⟨⟩ hl hv
    have := h.transfer l hl
    simp only [LiveCursor.start] at hv
    omega

theorem invalidateLive_sound {day : Day} (h : Sound day s) : Sound day s.invalidateLive := by
  cases hl : s.live with
  | none =>
    rw [invalidateLive_none hl]
    exact h
  | some p =>
    rw [invalidateLive_some hl]
    exact h.restart

theorem Sound.addSums {day : Day} {p : LiveCursor} (h : Sound day s) (hp : s.live = some p) (x : K → Int) :
    Sound day {s with sums := Function.update s.sums p.version x} where
  placed := h.placed
  fresh v hv := by
    have hne : v ≠ p.version := Nat.ne_of_gt (Nat.lt_of_lt_of_le (h.version p hp) hv)
    show Function.update s.sums p.version x v = 0
    rw [Function.update_of_ne hne]
    exact h.fresh v hv
  version := h.version
  transfer := h.transfer
  unbounded := h.unbounded
  waiting := h.waiting

/-! ### Raw writes -/

section Writes
variable [DecidableEq C]

/-- The condition on a raw write: its row lies behind the place where a build begins, and
a row too large to be read back keeps its date. -/
def State.AdmitsRow (day : Day) (s : State C K) (r : Record C) : Prop :=
  (day.has r = true → origin < r.position) ∧
    ∀ old, s.table.find r.id = some old → old ≠ r → maxPageBytes < old.size → day.has old = true →
      day.has r = true

def State.AdmitsRows (day : Day) (s : State C K) : List (Record C) → Prop
  | [] => True
  | r :: rest => s.AdmitsRow day r ∧ (s.writeRaw day r).1.AdmitsRows day rest

variable {day : Day} {s : State C K} {r : Record C}

omit [DecidableEq C] in
theorem store_sound (h : Sound day s)
    (hr : day.has r = true → origin < r.position) : Sound day (s.store r) where
  placed a ha hd := by
    rcases Table.mem_put.mp ha with rfl | ⟨ha, -⟩
    · exact hr hd
    · exact h.placed a ha hd
  fresh := h.fresh
  version := h.version
  transfer l hl := h.transfer l (filter_eq_some_iff.mp hl).1
  unbounded := h.unbounded
  waiting p l hp hl hv := by
    obtain ⟨hl, hne⟩ := filter_eq_some_iff.mp hl
    obtain ⟨hready, hb, hrecord, hwaits⟩ := h.waiting p l hp hl hv
    exact ⟨hready, hb, Table.mem_put.mpr (.inr ⟨hrecord, by simpa using hne⟩), hwaits⟩

theorem writeRaw_sound (h : Sound day s) (hr : s.AdmitsRow day r) : Sound day (s.writeRaw day r).1 := by
  unfold State.writeRaw
  split
  · exact store_sound h hr.1
  · split
    · exact h
    · split
      · split
        · exact store_sound (invalidateLive_sound h) hr.1
        · exact store_sound h hr.1
      · exact store_sound h hr.1

/-- A weight of the rows of the date. -/
def Day.only (day : Day) (w : Record C → K → Int) (r : Record C) : K → Int := if day.has r then w r else 0

def signedSum (w : Record C → K → Int) (signed : List (Int × Record C)) : K → Int :=
  (signed.map fun c => c.1 • w c.2).sum

/-- What a sequence of raw writes did to the date: its changes account for every total
of its rows, or it has begun anew. -/
structure Followed (day : Day) (s s' : State C K) (changes : List (RawChange C)) : Prop where
  sums : s'.sums = s.sums
  next : s.nextVersion ≤ s'.nextVersion
  entered : ∀ a ∈ s'.table, day.has a = true →
    a ∈ s.table ∨ (1, a) ∈ changes.flatMap (RawChange.signed day)
  accounted : s'.live = none ∨ (∃ v, s'.live = some (.start v) ∧ s.nextVersion ≤ v) ∨
    s'.live = s.live ∧ ∀ w : Record C → K → Int, s'.table.total (day.only w) =
      s.table.total (day.only w) + signedSum w (changes.flatMap (RawChange.signed day))

omit [DecidableEq C] in
theorem Followed.refl (day : Day) (s : State C K) : Followed day s s [] where
  sums := rfl
  next := le_refl _
  entered _ ha _ := .inl ha
  accounted := .inr (.inr ⟨rfl, fun w => by simp [signedSum]⟩)

omit [DecidableEq C] in
theorem Followed.trans {s s' s'' : State C K} {changes changes' : List (RawChange C)}
    (h : Followed day s s' changes) (h' : Followed day s' s'' changes') :
    Followed day s s'' (changes ++ changes') where
  sums := h'.sums.trans h.sums
  next := h.next.trans h'.next
  entered a ha hd := by
    rw [flatMap_append, mem_append]
    rcases h'.entered a ha hd with ha | ha
    · exact (h.entered a ha hd).imp id .inl
    · exact .inr (.inr ha)
  accounted := by
    rcases h'.accounted with hn | ⟨v, hv, hle⟩ | ⟨hl, ht⟩
    · exact .inl hn
    · exact .inr (.inl ⟨v, hv, h.next.trans hle⟩)
    · rw [hl]
      refine h.accounted.imp id (Or.imp id fun hs => ⟨hs.1, fun w => ?_⟩)
      rw [ht, hs.2, flatMap_append, signedSum, signedSum, signedSum, map_append,
        sum_append, add_assoc]

omit [DecidableEq C] in
theorem signedSum_signed (day : Day) (w : Record C → K → Int) (c : RawChange C) :
    signedSum w (c.signed day) = day.only w c.after - c.before.elim 0 (day.only w) := by
  obtain ⟨before, after⟩ := c
  have hafter : signedSum w (if day.has after then [(1, after)] else []) = day.only w after := by
    unfold Day.only
    split <;> simp [signedSum]
  cases before with
  | none => simpa [RawChange.signed] using hafter
  | some b =>
    have hsplit : signedSum w (RawChange.signed day ⟨some b, after⟩) = -day.only w b +
        signedSum w (if day.has after then [(1, after)] else []) := by
      by_cases hb : day.has b = true <;> simp [RawChange.signed, signedSum, Day.only, Option.filter, hb]
    rw [hsplit, hafter, elim_some, neg_add_eq_sub]

omit [DecidableEq C] in
/-- A row is stored with a change that accounts for the row it replaces. -/
theorem store_followed {before : Option (Record C)} (hb : ∀ w : Record C → K → Int,
      (s.table.find r.id).elim 0 (day.only w) = before.elim 0 (day.only w)) :
    Followed day s (s.store r) [⟨before, r⟩] where
  sums := rfl
  next := le_refl _
  entered a ha hd := by
    rcases Table.mem_put.mp ha with rfl | ⟨ha, -⟩
    · right
      simp [RawChange.signed, hd]
    · exact .inl ha
  accounted := by
    refine .inr (.inr ⟨rfl, fun w => ?_⟩)
    rw [flatMap_cons, flatMap_nil, append_nil, signedSum_signed, ← hb]
    show (s.table.put r).total _ = _
    rw [Table.total_put, sub_add_eq_add_sub, add_sub_assoc]

omit [DecidableEq C] in
/-- A row that begins the date anew. -/
theorem store_restarted (r : Record C) : Followed day s (s.invalidateLive.store r) [⟨none, r⟩] := by
  have hstore (s' : State C K) (ht : s'.table = s.table) (a : Record C) (ha : a ∈ (s'.store r).table)
      (hd : day.has a = true) : a ∈ s.table ∨ (1, a) ∈ [(⟨none, r⟩ : RawChange C)].flatMap
        (RawChange.signed day) := by
    rcases Table.mem_put.mp ha with rfl | ⟨ha, -⟩
    · right
      simp [RawChange.signed, hd]
    · exact .inl (ht ▸ ha)
  cases hl : s.live with
  | none =>
    rw [invalidateLive_none hl]
    exact ⟨rfl, le_refl _, hstore s rfl, .inl hl⟩
  | some p =>
    rw [invalidateLive_some hl]
    exact ⟨rfl, Nat.le_succ _, hstore _ rfl, .inr (.inl ⟨s.nextVersion, rfl, le_refl _⟩)⟩

theorem writeRaw_followed (hr : s.AdmitsRow day r) :
    Followed day s (s.writeRaw day r).1 (s.writeRaw day r).2 := by
  unfold State.writeRaw
  split
  · rename_i hf
    exact store_followed fun w => by rw [hf]
  · rename_i old hf
    split
    · exact Followed.refl day s
    · rename_i hne
      split
      · rename_i hsize
        split
        · exact store_restarted r
        · rename_i hd
          refine store_followed fun w => ?_
          have hold : ¬day.has old = true := fun ho => hd (hr.2 old hf hne hsize ho)
          rw [hf, elim_some, elim_none, Day.only, if_neg hold]
      · exact store_followed fun w => by rw [hf]

theorem writeRows_sound {rows : List (Record C)} (h : Sound day s)
    (hr : s.AdmitsRows day rows) : Sound day (s.writeRows day rows).1 := by
  induction rows generalizing s with
  | nil => exact h
  | cons r rest ih => exact ih (writeRaw_sound h hr.1) hr.2

theorem writeRows_followed {rows : List (Record C)} (hr : s.AdmitsRows day rows) :
    Followed day s (s.writeRows day rows).1 (s.writeRows day rows).2 := by
  induction rows generalizing s with
  | nil => exact Followed.refl day s
  | cons r rest ih => exact (writeRaw_followed hr.1).trans (ih hr.2)

end Writes

end ControlTower.Archive
