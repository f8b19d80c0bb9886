import Mathlib.Order.MinMax
import Mathlib.Order.RelClasses
import ControlTower.Archive.BatchWrites

/-! What a transaction of raw rows leaves, whichever path it takes.

`After` says what became of every table, day and count once some rows are written, by what
the archive had of them before. It does not speak of an order: a row is compared with the
table as it was, since no other row of the transaction has its id. -/
namespace ControlTower.Archive
open Data List

/-! ### The outermost of some dates -/

/-- The last of some dates in an order, or `none` where there is no date. -/
structure Outermost (le : Int → Int → Prop) (dates : Int → Prop) (f : Option Int) : Prop where
  bound : ∀ x, dates x → ∃ m, f = some m ∧ le x m
  attained : ∀ m, f = some m → dates m

namespace Outermost
variable {le : Int → Int → Prop} {dates dates' : Int → Prop} {f g : Option Int}

theorem unique (hanti : ∀ a b, le a b → le b a → a = b) (hf : Outermost le dates f)
    (hg : Outermost le dates g) : f = g := by
  apply Option.ext
  intro a
  constructor
  · intro ha
    obtain ⟨b, hb, hab⟩ := hg.bound a (hf.attained a ha)
    obtain ⟨c, hc, hbc⟩ := hf.bound b (hg.attained b hb)
    cases ha.symm.trans hc
    exact hanti a b hab hbc ▸ hb
  · intro ha
    obtain ⟨b, hb, hab⟩ := hf.bound a (hg.attained a ha)
    obtain ⟨c, hc, hbc⟩ := hg.bound b (hf.attained b hb)
    cases ha.symm.trans hc
    exact hanti a b hab hbc ▸ hb

theorem congr (h : Outermost le dates f) (hdates : ∀ x, dates x ↔ dates' x) :
    Outermost le dates' f :=
  ⟨fun x hx => h.bound x ((hdates x).mpr hx), fun m hm => (hdates m).mp (h.attained m hm)⟩

theorem self [Std.Refl le] (f : Option Int) : Outermost le (fun x => f = some x) f :=
  ⟨fun x hx => ⟨x, hx, refl x⟩, fun _ hm => hm⟩

/-- The outermost of some dates and of the outermost of others is that of all of them. -/
theorem trans [IsTrans Int le] (hf : Outermost le dates f)
    (hg : Outermost le (fun x => dates' x ∨ f = some x) g) :
    Outermost le (fun x => dates' x ∨ dates x) g where
  bound x hx := by
    rcases hx with hx | hx
    · exact hg.bound x (.inl hx)
    · obtain ⟨m, hm, hxm⟩ := hf.bound x hx
      obtain ⟨k, hk, hmk⟩ := hg.bound m (.inr hm)
      exact ⟨k, hk, IsTrans.trans x m k hxm hmk⟩
  attained m hm := (hg.attained m hm).imp_right (hf.attained m)

theorem join [Std.Refl le] {op : Int → Int → Int} (hleft : ∀ a b, le a (op a b))
    (hright : ∀ a b, le b (op a b)) (hchoice : ∀ a b, op a b = a ∨ op a b = b)
    (f : Option Int) (x : Int) :
      Outermost le (fun y => y = x ∨ f = some y) (some (f.elim x (op x))) where
  bound y hy := by
    refine ⟨_, rfl, ?_⟩
    rcases hy with rfl | rfl
    · cases f with
      | none => exact refl y
      | some a => exact hleft y a
    · exact hright x y
  attained m hm := by
    cases hm
    cases f with
    | none => exact .inl rfl
    | some a => exact (hchoice x a).imp_right fun h => congrArg some h.symm

theorem raise (f : Option Int) (x : Int) :
    Outermost (· ≤ ·) (fun y => y = x ∨ f = some y) (some (f.elim x (max x))) :=
  join le_max_left le_max_right max_choice f x

theorem lower (f : Option Int) (x : Int) :
    Outermost (· ≥ ·) (fun y => y = x ∨ f = some y) (some (f.elim x (min x))) :=
  join min_le_left min_le_right min_choice f x

end Outermost

/-! ### Touching days -/

/-- The row of a date once it is touched for some changes. -/
def touchedRow (row : Option DayRow) (date : Int) (changes : Nat) : DayRow :=
  let row := row.getD ⟨date, 1, .pending, none, none, none⟩
  if 0 < changes then ⟨row.date, row.revision + changes, .pending, none, none, none⟩ else row

theorem touchedRow_again (row : Option DayRow) (date : Int) (n m : Nat) :
    touchedRow (some (touchedRow row date n)) date m = touchedRow row date (m + n) := by
  unfold touchedRow
  simp only [Option.getD_some]
  by_cases hm : 0 < m
  · have hsum : 0 < m + n := by omega
    rw [if_pos hm, if_pos hsum]
    by_cases hn : 0 < n
    · rw [if_pos hn, DayRow.mk.injEq]
      exact ⟨rfl, by simp only; omega, rfl, rfl, rfl, rfl⟩
    · obtain rfl : n = 0 := by omega
      rfl
  · obtain rfl : m = 0 := by omega
    rw [if_neg hm, Nat.zero_add]

namespace Ledger
variable {C K H : Type}

theorem find_touchRawDay_row (s : Ledger C K H) (date d : Int) (changes : Nat) :
    (s.touchRawDay date changes).days.find d =
      if date = d then some (touchedRow (s.days.find d) d changes) else s.days.find d := by
  rw [find_touchRawDay]
  split
  next h =>
    subst h
    rfl
  next => rfl

/-- A raw write of one row. -/
theorem writeRaw_spec [DecidableEq C] {s s' : Ledger C K H} {r : Record C}
    (h : s.writeRaw r = some s') :
    (∀ name a, a ∈ s'.tables name ↔
      if name = table (day r.created) then a = r ∨ (a ∈ s.tables name ∧ a.id ≠ r.id)
        else a ∈ s.tables name) ∧
    (∀ date, s'.days.find date = if day r.created = date then
      some (touchedRow (s.days.find date) date
        (if (s.tables (table (day r.created))).find r.id = some r then 0 else 1))
      else s.days.find date) ∧
    s' = { s with
      tables := s'.tables
      days := s'.days
      frontier := some (s.frontier.elim (day r.created) (max (day r.created)))
      firstDate := some (s.firstDate.elim (day r.created) (min (day r.created))) } := by
  unfold writeRaw at h
  split at h
  · cases h
  split at h
  next hfind =>
    cases h
    refine ⟨fun name a => ?_, fun date => ?_, rfl⟩
    · -- Where the row is there as it is, it is the one of its id.
      have hmem := (Table.find_eq_some.mp hfind).1
      split
      next hname =>
        subst hname
        constructor
        · intro ha
          by_cases hid : a.id = r.id
          · exact .inl (Table.eq_of_key ha hmem hid)
          · exact .inr ⟨ha, hid⟩
        · rintro (rfl | ha)
          · exact hmem
          · exact ha.1
      next => rfl
    · rw [find_touchRawDay_row, if_pos hfind]
  next hfind =>
    cases h
    refine ⟨fun name a => ?_, fun date => ?_, rfl⟩
    · rw [touchRawDay_tables, mem_store]
      split
      next hname => rw [hname]
      next => rfl
    · rw [find_touchRawDay_row, if_neg hfind]
      rfl

/-- Dates that are touched one after another, each of them once. -/
theorem touchAll_find (changes : Int → Nat) {dates : List Int} (hnodup : dates.Nodup)
    (s : Ledger C K H) (d : Int) :
    (dates.foldl (fun s date => s.touchRawDay date (changes date)) s).days.find d =
      if d ∈ dates then some (touchedRow (s.days.find d) d (changes d)) else s.days.find d := by
  induction dates generalizing s with
  | nil => rfl
  | cons date dates ih =>
    rw [nodup_cons] at hnodup
    rw [foldl_cons, ih hnodup.2, find_touchRawDay_row]
    by_cases hd : date = d
    · subst hd
      rw [if_neg hnodup.1, if_pos rfl, if_pos mem_cons_self]
    · have hmem : d ∈ date :: dates ↔ d ∈ dates := by
        rw [mem_cons]
        exact or_iff_right (Ne.symm hd)
      rw [if_neg hd]
      simp only [hmem]

theorem touchAll_outermost (changes : Int → Nat) (dates : List Int) (s : Ledger C K H) :
    let s' := dates.foldl (fun s date => s.touchRawDay date (changes date)) s
    Outermost (· ≤ ·) (fun x => x ∈ dates ∨ s.frontier = some x) s'.frontier ∧
      Outermost (· ≥ ·) (fun x => x ∈ dates ∨ s.firstDate = some x) s'.firstDate := by
  induction dates generalizing s with
  | nil => exact ⟨(Outermost.self _).congr fun x => by simp,
             (Outermost.self _).congr fun x => by simp⟩
  | cons date dates ih =>
    obtain ⟨hlast, hfirst⟩ := ih (s.touchRawDay date (changes date))
    have hdates : ∀ f : Option Int, ∀ x, (x ∈ dates ∨ x = date ∨ f = some x) ↔
        (x ∈ date :: dates ∨ f = some x) := by
      intro f x
      rw [mem_cons, or_left_comm, or_assoc]
    exact ⟨((Outermost.raise s.frontier date).trans hlast).congr (hdates _),
      ((Outermost.lower s.firstDate date).trans hfirst).congr (hdates _)⟩

end Ledger

/-! ### The description -/

namespace Transaction
variable {C K H : Type} [DecidableEq C]

/-- What a transaction that began with `t₀` has come to with the rows `written`. -/
structure After (t₀ : Transaction C K H) (written : List (Record C)) (t : Transaction C K H) :
    Prop where
  tables : ∀ name a, a ∈ t.ledger.tables name ↔ (a ∈ written ∧ table (day a.created) = name) ∨
    (a ∈ t₀.ledger.tables name ∧ ∀ r ∈ written, table (day r.created) = name → r.id ≠ a.id)
  days : ∀ date, t.ledger.days.find date = if ∃ r ∈ written, day r.created = date then
    some (touchedRow (t₀.ledger.days.find date) date (written.countP fun r => day r.created = date ∧
      t₀.differs r = true))
    else t₀.ledger.days.find date
  frontier : Outermost (· ≤ ·) (fun x => (∃ r ∈ written, day r.created = x) ∨
    t₀.ledger.frontier = some x) t.ledger.frontier
  firstDate : Outermost (· ≥ ·) (fun x => (∃ r ∈ written, day r.created = x) ∨
    t₀.ledger.firstDate = some x) t.ledger.firstDate
  others : t.ledger = { t₀.ledger with
    tables := t.ledger.tables, days := t.ledger.days, frontier := t.ledger.frontier,
      firstDate := t.ledger.firstDate }
  largeLive : t.largeLive = t₀.largeLive.filter fun l =>
    !written.any fun r => t₀.differs r && l.table == table (day r.created) && l.id == r.id
  liveChanges : t.liveChanges.Perm (t₀.liveChanges ++ (written.filter t₀.differs).map t₀.change)
  invalidated : t.invalidated.Perm (t₀.invalidated ++ (written.filter t₀.invalidates).map fun r =>
    day r.created)
  inserted : t.inserted = t₀.inserted + written.countP fun r => (t₀.stored r).isNone
  changed : t.changed = t₀.changed + written.countP fun r => t₀.differs r && (t₀.stored r).isSome
  unchanged : t.unchanged = t₀.unchanged + written.countP fun r => !t₀.differs r

namespace After
variable {t₀ t t' : Transaction C K H} {written written' : List (Record C)}

theorem start (t : Transaction C K H) : After t [] t where
  tables name a := by simp
  days date := by simp
  frontier := (Outermost.self _).congr fun x => by simp
  firstDate := (Outermost.self _).congr fun x => by simp
  others := rfl
  largeLive := by cases t.largeLive <;> rfl
  liveChanges := by simp
  invalidated := by simp
  inserted := rfl
  changed := rfl
  unchanged := rfl

theorem perm (h : After t₀ written t) (hperm : written.Perm written') : After t₀ written' t where
  tables name a := by
    rw [h.tables, hperm.mem_iff]
    simp only [hperm.mem_iff]
  days date := by
    rw [h.days, hperm.countP_eq]
    simp only [hperm.mem_iff]
  frontier := h.frontier.congr fun x => by simp only [hperm.mem_iff]
  firstDate := h.firstDate.congr fun x => by simp only [hperm.mem_iff]
  others := h.others
  largeLive := by
    rw [h.largeLive]
    congr 1
    funext l
    rw [hperm.any_eq]
  liveChanges := h.liveChanges.trans (((hperm.filter _).map _).append_left _)
  invalidated := h.invalidated.trans (((hperm.filter _).map _).append_left _)
  inserted := by rw [h.inserted, hperm.countP_eq]
  changed := by rw [h.changed, hperm.countP_eq]
  unchanged := by rw [h.unchanged, hperm.countP_eq]

/-- An id that was not written is stored as it was. -/
theorem find (h : After t₀ written t) {name i : Int}
    (hnew : ∀ r ∈ written, table (day r.created) = name → r.id ≠ i) :
    (t.ledger.tables name).find i = (t₀.ledger.tables name).find i := by
  apply Option.ext
  intro a
  rw [Table.find_eq_some, Table.find_eq_some, h.tables]
  constructor
  · rintro ⟨⟨hw, hname⟩ | ⟨ha, -⟩, rfl⟩
    · exact absurd rfl (hnew a hw hname)
    · exact ⟨ha, rfl⟩
  · rintro ⟨ha, rfl⟩
    exact ⟨.inr ⟨ha, hnew⟩, rfl⟩

theorem stored (h : After t₀ written t) {r : Record C} (hnew : ∀ a ∈ written, a.id ≠ r.id) :
    t.stored r = t₀.stored r :=
  h.find fun a ha _ => hnew a ha

omit [DecidableEq C] in
/-- A count of changes on a date on which nothing was written. -/
theorem countP_date_eq_zero {rows : List (Record C)} {date : Int} {q : Record C → Bool}
    (hq : ∀ r, q r = true → day r.created = date)
    (hnone : ¬∃ r ∈ rows, day r.created = date) : rows.countP q = 0 :=
  countP_eq_zero.mpr fun r hr hd => hnone ⟨r, hr, hq r hd⟩

/-- Rows that are written after others, none of the same id. -/
theorem trans {fresh : List (Record C)} (h : After t₀ written t) (h' : After t fresh t')
    (hnew : ∀ a ∈ written, ∀ r ∈ fresh, a.id ≠ r.id) :
    After t₀ (fresh ++ written) t' := by
  have hstored : ∀ r ∈ fresh, t.stored r = t₀.stored r := fun r hr => h.stored fun a ha =>
    hnew a ha r hr
  have hdiffers : ∀ r ∈ fresh, t.differs r = t₀.differs r := fun r hr => by
    rw [differs, hstored r hr, differs]
  have hsummary : t.ledger.summaryFrom = t₀.ledger.summaryFrom := by rw [h.others]
  have hdates : ∀ x, (∃ r ∈ fresh ++ written, day r.created = x) ↔
      (∃ r ∈ fresh, day r.created = x) ∨ ∃ r ∈ written, day r.created = x := by
    intro x
    simp [or_and_right, exists_or]
  constructor
  case tables =>
    intro name a
    rw [h'.tables, h.tables, mem_append]
    constructor
    · rintro (⟨ha, hmonth⟩ | ⟨⟨ha, hmonth⟩ | ⟨ha, hold⟩, hrest⟩)
      · exact .inl ⟨.inl ha, hmonth⟩
      · exact .inl ⟨.inr ha, hmonth⟩
      · exact .inr ⟨ha, fun r hr => (mem_append.mp hr).elim (hrest r) (hold r)⟩
    · rintro (⟨ha | ha, hmonth⟩ | ⟨ha, hrest⟩)
      · exact .inl ⟨ha, hmonth⟩
      · exact .inr ⟨.inl ⟨ha, hmonth⟩, fun r hr _ => (hnew a ha r hr).symm⟩
      · exact .inr ⟨.inr ⟨ha, fun r hr => hrest r (mem_append_right _ hr)⟩,
          fun r hr => hrest r (mem_append_left _ hr)⟩
  case days =>
    intro date
    have hcount : (fresh.countP fun r => day r.created = date ∧ t.differs r = true) =
        fresh.countP fun r => day r.created = date ∧ t₀.differs r = true := by
      apply countP_congr
      intro r hr
      rw [hdiffers r hr]
    have hdate : ∀ r : Record C, decide (day r.created = date ∧ t₀.differs r = true) = true →
        day r.created = date := fun r hr => (of_decide_eq_true hr).1
    rw [h'.days, h.days, hcount, countP_append]
    simp only [hdates]
    by_cases hf : ∃ r ∈ fresh, day r.created = date
    · by_cases hw : ∃ r ∈ written, day r.created = date
      · rw [if_pos hf, if_pos hw, if_pos (.inl hf), touchedRow_again]
      · rw [if_pos hf, if_neg hw, if_pos (.inl hf), countP_date_eq_zero hdate hw, Nat.add_zero]
    · rw [if_neg hf, countP_date_eq_zero hdate hf, Nat.zero_add]
      simp only [hf, false_or]
  case frontier => exact (h.frontier.trans h'.frontier).congr fun x => by rw [hdates, or_assoc]
  case firstDate => exact (h.firstDate.trans h'.firstDate).congr fun x => by rw [hdates, or_assoc]
  case others => rw [h'.others, h.others]
  case largeLive =>
    rw [h'.largeLive, h.largeLive, Option.filter_filter]
    congr 1
    funext l
    have hany :
        (fresh.any fun r => t.differs r && l.table == table (day r.created) && l.id == r.id) =
        fresh.any fun r => t₀.differs r && l.table == table (day r.created) && l.id == r.id := by
      rw [Bool.eq_iff_iff, any_eq_true, any_eq_true]
      exact exists_congr fun r => and_congr_right fun hr => by rw [hdiffers r hr]
    rw [any_append, hany, Bool.not_or, Bool.and_comm]
  case liveChanges =>
    have hchanges : (fresh.filter t.differs).map t.change =
        (fresh.filter t₀.differs).map t₀.change := by
      rw [filter_congr hdiffers]
      apply map_congr_left
      intro r hr
      rw [change, hstored r (mem_filter.mp hr).1, change]
    have hperm := h'.liveChanges.trans (h.liveChanges.append_right _)
    rw [hchanges, append_assoc] at hperm
    rw [filter_append, map_append]
    exact hperm.trans (perm_append_comm.append_left _)
  case invalidated =>
    have hinvalidates : fresh.filter t.invalidates = fresh.filter t₀.invalidates := by
      apply filter_congr
      intro r hr
      rw [invalidates, hstored r hr, hdiffers r hr, hsummary, invalidates]
    have hperm := h'.invalidated.trans (h.invalidated.append_right _)
    rw [hinvalidates, append_assoc] at hperm
    rw [filter_append, map_append]
    exact hperm.trans (perm_append_comm.append_left _)
  case inserted =>
    have hcount : (fresh.countP fun r => (t.stored r).isNone) = fresh.countP fun r =>
        (t₀.stored r).isNone :=
      countP_congr fun r hr => by rw [hstored r hr]
    rw [h'.inserted, h.inserted, hcount, countP_append, Nat.add_assoc,
      Nat.add_comm (written.countP _)]
  case changed =>
    have hcount : (fresh.countP fun r => t.differs r && (t.stored r).isSome) = fresh.countP fun r =>
        t₀.differs r && (t₀.stored r).isSome :=
      countP_congr fun r hr => by rw [hdiffers r hr, hstored r hr]
    rw [h'.changed, h.changed, hcount, countP_append, Nat.add_assoc,
      Nat.add_comm (written.countP _)]
  case unchanged =>
    have hcount : (fresh.countP fun r => !t.differs r) = fresh.countP fun r => !t₀.differs r :=
      countP_congr fun r hr => by rw [hdiffers r hr]
    rw [h'.unchanged, h.unchanged, hcount, countP_append, Nat.add_assoc,
      Nat.add_comm (written.countP _)]

/-- One row, by `writeRaw`. -/
theorem writeRaw {r : Record C} (hwrite : t.writeRaw r = some t') : After t [r] t' := by
  obtain ⟨s, hs, rfl⟩ := Option.map_eq_some_iff.mp hwrite
  obtain ⟨htables, hdays, hothers⟩ := Ledger.writeRaw_spec hs
  constructor
  case tables =>
    intro name a
    show a ∈ s.tables name ↔ _
    rw [htables, mem_singleton, forall_mem_singleton]
    split
    next hname =>
      subst hname
      constructor
      · rintro (rfl | ⟨ha, hid⟩)
        · exact .inl ⟨rfl, rfl⟩
        · exact .inr ⟨ha, fun _ => hid.symm⟩
      · exact Or.imp And.left fun h => ⟨h.1, (h.2 rfl).symm⟩
    next hname =>
      constructor
      · exact fun ha => .inr ⟨ha, fun hmonth => absurd hmonth.symm hname⟩
      · rintro (⟨rfl, hmonth⟩ | ⟨ha, -⟩)
        · exact absurd hmonth.symm hname
        · exact ha
  case days =>
    intro date
    show s.days.find date = _
    have hone : (if (t.ledger.tables (table (day r.created))).find r.id = some r then 0 else 1) =
        if t.differs r = true then 1 else 0 := by
      by_cases hsame : (t.ledger.tables (table (day r.created))).find r.id = some r
      · simp [hsame, differs, Transaction.stored]
      · simp [hsame, differs, Transaction.stored]
    rw [hdays, hone]
    by_cases hdate : day r.created = date
    · simp [hdate, countP_cons]
    · simp [hdate]
  case frontier =>
    show Outermost _ _ s.frontier
    rw [hothers]
    exact (Outermost.raise _ _).congr fun x => by simp [eq_comm]
  case firstDate =>
    show Outermost _ _ s.firstDate
    rw [hothers]
    exact (Outermost.lower _ _).congr fun x => by simp [eq_comm]
  case others =>
    show s = _
    rw [hothers]
  case largeLive => simp
  case liveChanges => cases hd : t.differs r <;> simp [hd]
  case invalidated => cases hd : t.invalidates r <;> simp [hd]
  case inserted => simp [countP_cons]
  case changed => simp [countP_cons]
  case unchanged => cases hd : t.differs r <;> simp [hd]

/-- Rows by `writeRaw`, one after another. -/
theorem writeRows {rows : List (Record C)} (hnodup : (rows.map Record.id).Nodup)
    (hwrite : rows.foldlM Transaction.writeRaw t = some t') : After t rows t' := by
  induction rows generalizing t with
  | nil =>
    cases hwrite
    exact start _
  | cons r rows ih =>
    obtain ⟨t₁, h₁, h₂⟩ := Option.bind_eq_some_iff.mp hwrite
    rw [map_cons, nodup_cons] at hnodup
    refine ((writeRaw h₁).trans (ih hnodup.2 h₂) ?_).perm (perm_append_singleton r rows)
    intro a ha b hb hid
    rw [mem_singleton.mp ha] at hid
    exact hnodup.1 (hid ▸ mem_map_of_mem hb)

/-- Rows of one month that the archive does not have, inserted together. -/
theorem insert {fresh : List (Record C)} {name : Int} {s : Ledger C K H}
    (hname : ∀ r ∈ fresh, table (day r.created) = name)
    (hfresh : ∀ r ∈ fresh, t.stored r = none)
    (hinsert : Ledger.insertCollectionRows name t.ledger fresh = some s) :
    After t fresh { t with
      ledger := (((fresh.map fun r => day r.created).dedup).insertionSort (· ≤ ·)).foldl
        (fun s date => s.touchRawDay date (fresh.countP fun r => day r.created = date)) s
      largeLive := t.largeLive.filter fun l => !fresh.any fun r => l.table == name && l.id == r.id
      liveChanges := t.liveChanges ++ fresh.map fun r => ⟨none, r⟩
      inserted := t.inserted + fresh.length } := by
  have hdiffers : ∀ r ∈ fresh, t.differs r = true := fun r hr => by simp [differs, hfresh r hr]
  have hsame := Ledger.insertCollectionRows_same hinsert
  have htouched := Ledger.touchAll_same (fun date => fresh.countP fun r => day r.created = date)
    (((fresh.map fun r => day r.created).dedup).insertionSort (· ≤ ·)) s
  have hnodup : (((fresh.map fun r => day r.created).dedup).insertionSort (· ≤ ·)).Nodup :=
    (perm_insertionSort _ _).nodup_iff.mpr (nodup_dedup _)
  obtain ⟨hfrontier, hfirstDate⟩ := Ledger.touchAll_outermost
    (fun date => fresh.countP fun r => day r.created = date)
    (((fresh.map fun r => day r.created).dedup).insertionSort (· ≤ ·)) s
  constructor
  case tables =>
    intro n a
    rw [htouched]
    show a ∈ s.tables n ↔ _
    rw [Ledger.mem_insertCollectionRows hinsert n a]
    constructor
    · rintro (⟨rfl, ha⟩ | ha)
      · exact .inl ⟨ha, hname a ha⟩
      · refine .inr ⟨ha, fun r hr hmonth => ?_⟩
        have habsent := hfresh r hr
        rw [Transaction.stored, Table.find_eq_none, hmonth] at habsent
        exact Ne.symm (habsent a ha)
    · rintro (⟨ha, hmonth⟩ | ⟨ha, -⟩)
      · exact .inl ⟨hmonth.symm.trans (hname a ha), ha⟩
      · exact .inr ha
  case days =>
    intro date
    have hcount : (fresh.countP fun r => day r.created = date ∧ t.differs r = true) =
        fresh.countP fun r => day r.created = date := by
      apply countP_congr
      intro r hr
      simp [hdiffers r hr]
    have hdays : s.days.find date = t.ledger.days.find date := by rw [hsame]
    rw [Ledger.touchAll_find _ hnodup, hdays, hcount]
    simp only [Ledger.mem_freshDates]
  case frontier => exact hfrontier.congr fun x => by rw [Ledger.mem_freshDates, hsame]
  case firstDate => exact hfirstDate.congr fun x => by rw [Ledger.mem_freshDates, hsame]
  case others =>
    show Ledger.mk .. = _
    rw [htouched, hsame]
  case largeLive =>
    show t.largeLive.filter _ = _
    congr 1
    funext l
    congr 1
    rw [Bool.eq_iff_iff, any_eq_true, any_eq_true]
    refine exists_congr fun r => and_congr_right fun hr => ?_
    rw [hdiffers r hr, hname r hr, Bool.true_and]
  case liveChanges =>
    have hmap : fresh.map t.change = fresh.map fun r => ⟨none, r⟩ := by
      apply map_congr_left
      intro r hr
      rw [change, hfresh r hr, Option.filter_none]
    rw [filter_eq_self.mpr hdiffers, hmap]
  case invalidated =>
    have hfilter : fresh.filter t.invalidates = [] := by
      refine filter_eq_nil_iff.mpr fun r hr => ?_
      simp [invalidates, hfresh r hr]
    rw [hfilter, map_nil, append_nil]
  case inserted =>
    show t.inserted + fresh.length = _
    rw [countP_eq_length.mpr fun r hr => by rw [hfresh r hr, Option.isNone_none]]
  case changed =>
    show t.changed = _
    rw [countP_eq_zero.mpr fun r hr => by simp [hfresh r hr], Nat.add_zero]
  case unchanged =>
    show t.unchanged = _
    rw [countP_eq_zero.mpr fun r hr => by simp [hdiffers r hr], Nat.add_zero]

end After

/-- The same archive, and the same account of what was done to it. -/
structure Same (a b : Transaction C K H) : Prop where
  tables : ∀ name r, r ∈ a.ledger.tables name ↔ r ∈ b.ledger.tables name
  days : ∀ date, a.ledger.days.find date = b.ledger.days.find date
  firstDate : a.ledger.firstDate = b.ledger.firstDate
  frontier : a.ledger.frontier = b.ledger.frontier
  others : a.ledger = { b.ledger with tables := a.ledger.tables, days := a.ledger.days }
  largeLive : a.largeLive = b.largeLive
  inserted : a.inserted = b.inserted
  changed : a.changed = b.changed
  unchanged : a.unchanged = b.unchanged
  liveChanges : a.liveChanges.Perm b.liveChanges
  invalidated : a.invalidated.Perm b.invalidated

theorem After.same {t₀ a b : Transaction C K H} {written : List (Record C)}
    (ha : After t₀ written a) (hb : After t₀ written b) : Same a b := by
  have hfrontier : a.ledger.frontier = b.ledger.frontier := ha.frontier.unique
    (fun _ _ => le_antisymm) hb.frontier
  have hfirst : a.ledger.firstDate = b.ledger.firstDate := ha.firstDate.unique
    (fun _ _ h h' => le_antisymm h' h) hb.firstDate
  constructor
  case tables =>
    intro name r
    rw [ha.tables, hb.tables]
  case days =>
    intro date
    rw [ha.days, hb.days]
  case firstDate => exact hfirst
  case frontier => exact hfrontier
  case others =>
    rw [ha.others, hb.others, hfirst, hfrontier]
  case largeLive => rw [ha.largeLive, hb.largeLive]
  case inserted => rw [ha.inserted, hb.inserted]
  case changed => rw [ha.changed, hb.changed]
  case unchanged => rw [ha.unchanged, hb.unchanged]
  case liveChanges => exact ha.liveChanges.trans hb.liveChanges.symm
  case invalidated => exact ha.invalidated.trans hb.invalidated.symm

end Transaction

end ControlTower.Archive
