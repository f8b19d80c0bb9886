import ControlTower.Tuning.ProbeCoverage
import Mathlib.Data.List.TakeDrop

/-! The coverage counters over whole runs.

As long as no dispatch arrives for a minute that was already swept, every entry of
the buffer counts all dispatches of its key: what a flush carries, and so what the
table holds, is then the count of a prefix of them. Prefixes of one list are
comparable, which is why the larger value of each column is again such a count. -/
namespace ControlTower.Tuning.ProbeCoverage
open Go Data List Table ProbeDispatchCounts

namespace Stored

theorem counter_of_mem {s : Stored} {r : ProbeCoverageBucket} (h : r ∈ s) (c : Column) :
    s.counter r.key c = r.column c := by
  simp [counter, find_eq_some.mpr ⟨h, rfl⟩]

theorem counter_upsert (s : Stored) (v : ProbeCoverageBucket) (k : ProbeCoverageKey) (c : Column) :
    (s.upsert v).counter k c = if v.key = k then max (s.counter k c) (v.column c) else s.counter k c := by
  simp only [upsert]
  split
  next r hr =>
    have hk := (find_eq_some.mp hr).2
    simp only [counter, find_put, hk]
    split
    next h => subst h; simp [hr]
    next h => rfl
  next hr =>
    simp only [counter, find_put]
    split
    next h => subst h; simp [hr]
    next h => rfl

theorem counter_le_upsert (s : Stored) (v : ProbeCoverageBucket) (k : ProbeCoverageKey) (c : Column) :
    s.counter k c ≤ (s.upsert v).counter k c := by
  rw [counter_upsert]
  split <;> omega

theorem counter_le_write (s : Stored) (batch : List ProbeCoverageBucket) (k : ProbeCoverageKey) (c : Column) :
    s.counter k c ≤ (s.write batch).counter k c := by
  induction batch generalizing s with
  | nil => exact Nat.le_refl _
  | cons v batch ih => exact (counter_le_upsert s v k c).trans (ih (s.upsert v))

theorem column_le_write {batch : List ProbeCoverageBucket} {v : ProbeCoverageBucket} (h : v ∈ batch) (s : Stored)
    (c : Column) : v.column c ≤ (s.write batch).counter v.key c := by
  induction batch generalizing s with
  | nil => cases h
  | cons u batch ih =>
    cases h with
    | head =>
      have hu : v.column c ≤ (s.upsert v).counter v.key c := by
        rw [counter_upsert, if_pos rfl]
        omega
      exact hu.trans (counter_le_write _ batch _ c)
    | tail _ h => exact ih h (s.upsert u)

end Stored

namespace Buffer

theorem latest_spec (b : Buffer) (stream : ChannelKey × Bool) :
    latest b stream = 0 ∨ ∃ e ∈ b, e.key.stream = stream ∧ e.key.minute = latest b stream := by
  have hfold : ∀ (l : List ProbeCoverageEntry) (m : Int),
      l.foldl (fun m e => max m e.key.minute) m = m ∨
        ∃ e ∈ l, e.key.minute = l.foldl (fun m e => max m e.key.minute) m := by
    intro l
    induction l with
    | nil => exact fun m => .inl rfl
    | cons e l ih =>
      intro m
      simp only [foldl_cons, mem_cons]
      rcases ih (max m e.key.minute) with h | ⟨a, ha, h⟩
      · by_cases hm : e.key.minute ≤ m
        · exact .inl (by rw [h]; omega)
        · exact .inr ⟨e, .inl rfl, by rw [h]; omega⟩
      · exact .inr ⟨a, .inr ha, h⟩
  rcases hfold (b.rows.filter fun e => e.key.stream = stream) 0 with h | ⟨e, he, h⟩
  · exact .inl h
  · have := mem_filter.mp he
    exact .inr ⟨e, this.1, by simpa using this.2, h⟩

theorem find_acknowledge_eq_none (b : Buffer) (values : List ProbeCoverageBucket) (k : ProbeCoverageKey) :
    (acknowledge b values).find k = none ↔ b.find k = none := by
  induction values generalizing b with
  | nil => exact Iff.rfl
  | cons v values ih =>
    refine (ih (acknowledgeRow b v)).trans ?_
    simp only [acknowledgeRow]
    split
    next e he =>
      have hk := (find_eq_some.mp he).2
      simp only [find_put, hk]
      split
      next h => subst h; simp [he]
      next h => exact Iff.rfl
    next => exact Iff.rfl

/-- An acknowledgement changes nothing but how much of an entry is saved. -/
theorem mem_acknowledge {b : Buffer} {values : List ProbeCoverageBucket} {e : ProbeCoverageEntry}
    (h : e ∈ acknowledge b values) :
    ∃ e₀ ∈ b, e.toProbeCoverageBucket = e₀.toProbeCoverageBucket ∧
      (e.saved = e₀.saved ∨ ∃ v ∈ values, v.key = e.key ∧ e.saved = v.due) := by
  induction values generalizing b with
  | nil => exact ⟨e, h, rfl, .inl rfl⟩
  | cons v values ih =>
    obtain ⟨e₁, he₁, hb, hs⟩ := ih (b := acknowledgeRow b v) h
    have hlater : (∃ u ∈ values, u.key = e.key ∧ e.saved = u.due) → ∃ u ∈ v :: values, u.key = e.key ∧ e.saved = u.due :=
      fun ⟨u, hu, h⟩ => ⟨u, mem_cons_of_mem _ hu, h⟩
    simp only [acknowledgeRow] at he₁
    split at he₁
    next e₂ he₂ =>
      have h₂ := find_eq_some.mp he₂
      rcases mem_put.mp he₁ with rfl | ⟨he₁, -⟩
      · refine ⟨e₂, h₂.1, hb, ?_⟩
        rcases hs with hs | hs
        · rcases Nat.le_total v.due e₂.saved with hle | hle
          · exact .inl (hs.trans (Nat.max_eq_left hle))
          · refine .inr ⟨v, mem_cons_self, ?_, hs.trans (Nat.max_eq_right hle)⟩
            rw [hb]
            exact h₂.2.symm
        · exact .inr (hlater hs)
      · exact ⟨e₁, he₁, hb, hs.imp_right hlater⟩
    next => exact ⟨e₁, he₁, hb, hs.imp_right hlater⟩

end Buffer

/-! ### Histories -/

def Event.dispatchOf (k : ProbeCoverageKey) : Event → Option RoutineDispatch
  | .record channel d => if keyOf channel d = k then some d else none
  | _ => none

/-- The dispatches of a key so far. -/
def recordsOf (es : List Event) (k : ProbeCoverageKey) : List RoutineDispatch := es.filterMap (Event.dispatchOf k)

/-- How many dispatches of a key a column has to count. -/
def made (es : List Event) (k : ProbeCoverageKey) (c : Column) : Nat := (recordsOf es k).countP c.counts

/-- The times of one stream do not decrease. -/
def InOrder : Event → Event → Prop
  | .record channel d, .record channel' d' => channel = channel' → d.scheduled = d'.scheduled → d.time ≤ d'.time
  | _, _ => True

instance : DecidableRel InOrder
  | .record _ _, .record _ _ => inferInstanceAs (Decidable (_ → _ → _))
  | .record _ _, .snapshot _ _ | .record _ _, .write _ | .record _ _, .fail _ | .record _ _, .acknowledge _ =>
    inferInstanceAs (Decidable True)
  | .snapshot _ _, _ | .write _, _ | .fail _, _ | .acknowledge _, _ => inferInstanceAs (Decidable True)

def Event.SinceEpoch : Event → Prop
  | .record _ d => 0 ≤ d.time
  | _ => True

instance : DecidablePred Event.SinceEpoch
  | .record _ _ => inferInstanceAs (Decidable (_ ≤ _))
  | .snapshot _ _ | .write _ | .fail _ | .acknowledge _ => inferInstanceAs (Decidable True)

/-- A snapshot found the minute older than the retention. -/
def ExpiredIn (es : List Event) (k : ProbeCoverageKey) : Prop := ∃ now order, Event.snapshot now order ∈ es ∧ Expired now k

/-- The stream of the key has a dispatch of a later minute. -/
def PassedIn (es : List Event) (k : ProbeCoverageKey) : Prop :=
  ∃ channel d, Event.record channel d ∈ es ∧ (keyOf channel d).stream = k.stream ∧ k.minute < minuteOf d.time

/-- The minute had a dispatch after a snapshot found it older than the retention: the
buffer started it again from zero. -/
def Restarted (es : List Event) (k : ProbeCoverageKey) : Prop :=
  ∃ past now order later, es = past ++ .snapshot now order :: later ∧ Expired now k ∧ recordsOf later k ≠ []

/-- What the callers grant. A minute that was started again stays older than the
retention; `Wellformed.of_clock` has this from snapshot times that do not decrease. -/
structure Wellformed (es : List Event) : Prop where
  inOrder : es.Pairwise InOrder
  sinceEpoch : ∀ e ∈ es, e.SinceEpoch
  steady : ∀ past now order later, es = past ++ .snapshot now order :: later →
    ∀ k, Restarted past k → Expired now k

/-- The values count a prefix of the key's dispatches. -/
def Version (es : List Event) (k : ProbeCoverageKey) (f : Column → Nat) : Prop :=
  ∃ ds, ds <+: recordsOf es k ∧ ∀ c, f c = ds.countP c.counts

section History
variable {es fs : List Event} {k : ProbeCoverageKey} {f g : Column → Nat}

theorem recordsOf_append : recordsOf (es ++ fs) k = recordsOf es k ++ recordsOf fs k := filterMap_append

theorem exists_record {d : RoutineDispatch} (h : d ∈ recordsOf es k) :
    ∃ channel, Event.record channel d ∈ es ∧ keyOf channel d = k := by
  obtain ⟨e, he, hd⟩ := mem_filterMap.mp h
  cases e with
  | record channel d' =>
    simp only [Event.dispatchOf] at hd
    split at hd
    next hk =>
      cases hd
      exact ⟨channel, he, hk⟩
    next => cases hd
  | _ => cases hd

theorem Version.mono (h : Version es k f) : Version (es ++ fs) k f := by
  obtain ⟨ds, hp, hf⟩ := h
  refine ⟨ds, ?_, hf⟩
  rw [recordsOf_append]
  exact hp.trans (prefix_append _ _)

theorem Version.of_made (h : ∀ c, f c = made es k c) : Version es k f := ⟨_, prefix_refl _, h⟩

theorem Version.zero : Version es k fun _ => 0 := ⟨[], nil_prefix, fun _ => rfl⟩

theorem Version.le (h : Version es k f) (c : Column) : f c ≤ made es k c := by
  obtain ⟨ds, hp, hf⟩ := h
  rw [hf]
  exact hp.sublist.countP_le

/-- Of two prefixes one is the longer, in every column. -/
theorem Version.max (hf : Version es k f) (hg : Version es k g) : Version es k fun c => Max.max (f c) (g c) := by
  obtain ⟨as, ha, hfa⟩ := hf
  obtain ⟨bs, hb, hgb⟩ := hg
  rcases prefix_or_prefix_of_prefix ha hb with h | h
  · refine ⟨bs, hb, fun c => ?_⟩
    simp only [hfa, hgb]
    exact Nat.max_eq_right h.sublist.countP_le
  · refine ⟨as, ha, fun c => ?_⟩
    simp only [hfa, hgb]
    exact Nat.max_eq_left h.sublist.countP_le

/-- `due` is the length of the prefix: a version with all of it is the whole count. -/
theorem Version.full (h : Version es k f) (hdue : made es k .due ≤ f .due) (c : Column) : f c = made es k c := by
  obtain ⟨ds, hp, hf⟩ := h
  have hall : ∀ l : List RoutineDispatch, l.countP Column.due.counts = l.length :=
    fun l => countP_eq_length.mpr fun _ _ => rfl
  have hlen : (recordsOf es k).length ≤ ds.length := by
    rw [← hall, ← hall, ← hf]
    exact hdue
  rw [hf, hp.eq_of_length_le hlen]
  rfl

theorem Version.write {s : Stored} (hs : ∀ k, Version es k (s.counter k)) (batch : List ProbeCoverageBucket)
    (hb : ∀ v ∈ batch, Version es v.key v.column) (k : ProbeCoverageKey) : Version es k ((s.write batch).counter k) := by
  induction batch generalizing s with
  | nil => exact hs k
  | cons v batch ih =>
    refine ih (s := s.upsert v) (fun k => ?_) fun u hu => hb u (mem_cons_of_mem _ hu)
    by_cases hk : v.key = k
    · have heq : (s.upsert v).counter k = fun c => Max.max (s.counter k c) (v.column c) := by
        funext c
        rw [Stored.counter_upsert, if_pos hk]
      rw [heq]
      exact (hs k).max (hk ▸ hb v mem_cons_self)
    · have heq : (s.upsert v).counter k = s.counter k := by
        funext c
        rw [Stored.counter_upsert, if_neg hk]
      rw [heq]
      exact hs k

theorem ExpiredIn.mono (h : ExpiredIn es k) : ExpiredIn (es ++ fs) k :=
  let ⟨now, order, hm, he⟩ := h
  ⟨now, order, mem_append_left _ hm, he⟩

theorem PassedIn.mono (h : PassedIn es k) : PassedIn (es ++ fs) k :=
  let ⟨channel, d, hm, he⟩ := h
  ⟨channel, d, mem_append_left _ hm, he⟩

theorem Restarted.mono (h : Restarted es k) : Restarted (es ++ fs) k := by
  obtain ⟨past, now, order, later, rfl, hx, hr⟩ := h
  refine ⟨past, now, order, later ++ fs, by simp, hx, ?_⟩
  rw [recordsOf_append]
  simp [hr]

theorem Restarted.expiredIn (h : Restarted es k) : ExpiredIn es k := by
  obtain ⟨past, now, order, later, rfl, hx, -⟩ := h
  exact ⟨now, order, by simp, hx⟩

theorem ExpiredIn.restarted (h : ExpiredIn es k) (hr : recordsOf fs k ≠ []) : Restarted (es ++ fs) k := by
  obtain ⟨now, order, hm, hx⟩ := h
  obtain ⟨past, later, rfl⟩ := append_of_mem hm
  refine ⟨past, now, order, later ++ fs, by simp, hx, ?_⟩
  rw [recordsOf_append]
  simp [hr]

theorem Wellformed.of_append (h : Wellformed (es ++ fs)) : Wellformed es where
  inOrder := (pairwise_append.mp h.inOrder).1
  sinceEpoch e he := h.sinceEpoch e (mem_append_left _ he)
  steady past now order later heq := h.steady past now order (later ++ fs) (by simp [heq])

/-- A minute that its stream has passed gets no further dispatch. -/
theorem Wellformed.not_passed {channel : ChannelKey} {d : RoutineDispatch} (h : Wellformed (es ++ [.record channel d])) :
    ¬ PassedIn es (keyOf channel d) := by
  intro ⟨channel', d', hm, hs, hlt⟩
  have hs := Prod.mk.inj hs
  have hlast : InOrder (.record channel' d') (.record channel d) :=
    (pairwise_append.mp h.inOrder).2.2 _ hm _ mem_cons_self
  have hle := minuteOf_mono (hlast hs.1 hs.2)
  have : (keyOf channel d).minute = minuteOf d.time := rfl
  omega

/-- The snapshot times, in the order of the run. -/
def snapshotTimes (es : List Event) : List Time :=
  es.filterMap fun
    | .snapshot now _ => some now
    | _ => none

theorem Wellformed.of_clock (hord : es.Pairwise InOrder) (hepoch : ∀ e ∈ es, e.SinceEpoch)
    (hclock : (snapshotTimes es).Pairwise (· ≤ ·)) : Wellformed es := by
  refine ⟨hord, hepoch, ?_⟩
  intro past now order later heq k hr
  obtain ⟨now', order', hm, hx⟩ := hr.expiredIn
  have hbefore : now' ∈ snapshotTimes past := mem_filterMap.mpr ⟨_, hm, rfl⟩
  have htimes : snapshotTimes es = snapshotTimes past ++ now :: snapshotTimes later := by
    simp [snapshotTimes, heq]
  rw [htimes] at hclock
  exact hx.mono ((pairwise_append.mp hclock).2.2 _ hbefore _ mem_cons_self)

end History

/-! ### The invariant -/

/-- What holds after the events `es`. -/
structure Sound (es : List Event) (w : World) : Prop where
  balanced : ∀ e ∈ w.buffer, e.Balanced
  counted : ∀ e ∈ w.buffer, (∀ c, e.column c = made es e.key c) ∨ Restarted es e.key
  recorded : ∀ e ∈ w.buffer, recordsOf es e.key ≠ []
  saved : ∀ e ∈ w.buffer, e.saved ≤ w.stored.counter e.key .due
  gone : ∀ k, w.buffer.find k = none →
    recordsOf es k = [] ∨ ExpiredIn es k ∨ PassedIn es k ∧ ∀ c, w.stored.counter k c = made es k c
  carried : ∀ f ∈ w.flushes, ∀ v ∈ f.values, Version es v.key v.column
  stored : ∀ k, Version es k (w.stored.counter k)
  written : ∀ f ∈ w.flushes, ∀ v ∈ f.values.take (200 * f.statements), ∀ c, v.column c ≤ w.stored.counter v.key c
  complete : ∀ f ∈ w.flushes, f.outcome = .succeeded → f.Complete

namespace Sound
variable {es : List Event} {w : World} {f : Flush} {i : Nat}

theorem init : Sound [] .init where
  balanced _ he := nomatch he
  counted _ he := nomatch he
  recorded _ he := nomatch he
  saved _ he := nomatch he
  gone _ _ := .inl rfl
  carried _ hf := nomatch hf
  stored _ := .zero
  written _ hf := nomatch hf
  complete _ hf := nomatch hf

theorem record {channel : ChannelKey} {d : RoutineDispatch} (h : Sound es w)
    (hes : Wellformed (es ++ [.record channel d])) :
    Sound (es ++ [.record channel d]) (w.step (.record channel d)) := by
  -- The key of the dispatch gets one more; no other key changes.
  have hown : recordsOf (es ++ [.record channel d]) (keyOf channel d) = recordsOf es (keyOf channel d) ++ [d] := by
    simp [recordsOf, Event.dispatchOf]
  have hother : ∀ k, k ≠ keyOf channel d → recordsOf (es ++ [.record channel d]) k = recordsOf es k := by
    intro k hk
    simp [recordsOf, Event.dispatchOf, Ne.symm hk]
  have hmade : ∀ k, k ≠ keyOf channel d → made (es ++ [.record channel d]) k = made es k := by
    intro k hk
    funext c
    rw [made, made, hother k hk]
  have hentry : (Buffer.entry w.buffer (keyOf channel d)).Balanced ∧
      ((∀ c, (Buffer.entry w.buffer (keyOf channel d)).column c = made es (keyOf channel d) c) ∨
        Restarted (es ++ [.record channel d]) (keyOf channel d)) ∧
      (Buffer.entry w.buffer (keyOf channel d)).saved ≤ w.stored.counter (keyOf channel d) .due := by
    simp only [Buffer.entry]
    cases hf : w.buffer.find (keyOf channel d) with
    | some e =>
      obtain ⟨he, hk⟩ := find_eq_some.mp hf
      exact hk ▸ ⟨h.balanced e he, (h.counted e he).imp_right Restarted.mono, h.saved e he⟩
    | none =>
      refine ⟨rfl, ?_, Nat.zero_le _⟩
      rcases h.gone _ hf with hnone | hx | hp
      · exact .inl (by simp [made, hnone])
      · refine .inr (hx.restarted ?_)
        simp [recordsOf, Event.dispatchOf]
      · exact absurd hp.1 hes.not_passed
  constructor
  case balanced =>
    intro e he
    rcases mem_put.mp he with rfl | ⟨he, -⟩
    · exact hentry.1.add d
    · exact h.balanced e he
  case counted =>
    intro e he
    rcases mem_put.mp he with rfl | ⟨he, hk⟩
    · refine hentry.2.1.imp_left fun hcount c => ?_
      show (ProbeDispatchCounts.add _ d).column c = made _ (keyOf channel d) c
      rw [column_add, hcount, made, made, hown, countP_append]
      simp [countP_cons]
    · rw [hmade _ hk]
      exact (h.counted e he).imp_right Restarted.mono
  case recorded =>
    intro e he
    rcases mem_put.mp he with rfl | ⟨he, hk⟩
    · show recordsOf _ (keyOf channel d) ≠ []
      simp [hown]
    · rw [hother _ hk]
      exact h.recorded e he
  case saved =>
    intro e he
    rcases mem_put.mp he with rfl | ⟨he, hk⟩
    · exact hentry.2.2
    · exact h.saved e he
  case gone =>
    intro k hk
    simp only [World.step, Buffer.record, find_put] at hk
    split at hk
    next => cases hk
    next hne =>
      rw [hother k (Ne.symm hne), hmade k (Ne.symm hne)]
      exact (h.gone k hk).imp_right (Or.imp ExpiredIn.mono fun hp => ⟨hp.1.mono, hp.2⟩)
  case carried => exact fun f hf v hv => (h.carried f hf v hv).mono
  case stored => exact fun k => (h.stored k).mono
  case written => exact h.written
  case complete => exact h.complete

/-- An event that is no dispatch adds nothing to what there is to count. -/
theorem recordsOf_quiet {e : Event} (he : ∀ k, e.dispatchOf k = none) (k : ProbeCoverageKey) :
    recordsOf (es ++ [e]) k = recordsOf es k := by
  simp [recordsOf, he k]

theorem made_quiet {e : Event} (he : ∀ k, e.dispatchOf k = none) (k : ProbeCoverageKey) :
    made (es ++ [e]) k = made es k := by
  funext c
  rw [made, made, recordsOf_quiet he]

variable (h : Sound es w)
include h

/-- Nothing of the invariant depends on an event that is no dispatch. -/
theorem quiet {e : Event} (he : ∀ k, e.dispatchOf k = none) : Sound (es ++ [e]) w where
  balanced := h.balanced
  counted a ha := by
    rw [made_quiet he]
    exact (h.counted a ha).imp_right Restarted.mono
  recorded a ha := by rw [recordsOf_quiet he]; exact h.recorded a ha
  saved := h.saved
  gone k hk := by
    rw [recordsOf_quiet he, made_quiet he]
    exact (h.gone k hk).imp_right (Or.imp ExpiredIn.mono fun hp => ⟨hp.1.mono, hp.2⟩)
  carried f hf v hv := (h.carried f hf v hv).mono
  stored k := (h.stored k).mono
  written := h.written
  complete := h.complete

/-- The row of an entry that is saved in full is exact. -/
theorem exact_of_saved {e : ProbeCoverageEntry} (he : e ∈ w.buffer)
    (hcount : ∀ c, e.column c = made es e.key c) (hs : e.saved = e.due) (c : Column) :
    w.stored.counter e.key c = made es e.key c := by
  apply (h.stored e.key).full
  have hdue : e.due = made es e.key .due := hcount .due
  have := h.saved e he
  omega

/-- A settled entry is behind its stream. -/
theorem passed_of_settled (hes : Wellformed es) {e : ProbeCoverageEntry} (he : e ∈ w.buffer)
    (hs : Buffer.Settled w.buffer e) : PassedIn es e.key := by
  have hsome : ∀ a ∈ w.buffer, ∃ channel d, Event.record channel d ∈ es ∧ keyOf channel d = a.key := by
    intro a ha
    obtain ⟨d, hd⟩ := exists_mem_of_ne_nil _ (h.recorded a ha)
    obtain ⟨channel, hm, hk⟩ := exists_record hd
    exact ⟨channel, d, hm, hk⟩
  rcases Buffer.latest_spec w.buffer e.key.stream with h0 | ⟨a, ha, hstream, hmin⟩
  · -- The zero value of the map is no later minute: the entry's own is not negative.
    obtain ⟨channel, d, hm, hk⟩ := hsome e he
    have hd : 0 ≤ minuteOf d.time := minuteOf_nonneg (hes.sinceEpoch _ hm)
    have hmin : e.key.minute = minuteOf d.time := by rw [← hk]; rfl
    have := hs.2
    omega
  · obtain ⟨channel, d, hm, hk⟩ := hsome a ha
    refine ⟨channel, d, hm, by rw [hk, hstream], ?_⟩
    have : a.key.minute = minuteOf d.time := by rw [← hk]; rfl
    have := hs.2
    omega

omit h in
theorem mem_started {now : Time} {order : MapOrder} {b : Buffer} {v : ProbeCoverageBucket}
    (hv : v ∈ (World.started now order b).values) :
    ∃ e ∈ b, v = e.toProbeCoverageBucket ∧ ¬ Expired now e.key ∧ e.saved ≠ e.due := by
  obtain ⟨e, he, rfl⟩ := mem_map.mp ((order.2 _).mem_iff.mp hv)
  have he := mem_filter.mp he
  exact ⟨e, he.1, rfl, by simpa using he.2⟩

theorem snapshot {now : Time} {order : MapOrder} (hes : Wellformed (es ++ [.snapshot now order])) :
    Sound (es ++ [.snapshot now order]) (w.step (.snapshot now order)) := by
  have h' := h.quiet (e := .snapshot now order) fun _ => rfl
  have hsub : ∀ e ∈ Buffer.swept now w.buffer, e ∈ w.buffer := fun e he => (mem_keep.mp he).1
  have hwhole : ∀ e ∈ w.buffer, ¬ Expired now e.key → ∀ c, e.column c = made es e.key c := by
    intro e he hx
    exact (h.counted e he).resolve_right fun hr => hx (hes.steady es now order [] rfl e.key hr)
  constructor
  case balanced => exact fun e he => h'.balanced e (hsub e he)
  case counted => exact fun e he => h'.counted e (hsub e he)
  case recorded => exact fun e he => h'.recorded e (hsub e he)
  case saved => exact fun e he => h'.saved e (hsub e he)
  case gone =>
    intro k hk
    cases hf : w.buffer.find k with
    | none => exact h'.gone k hf
    | some e =>
      obtain ⟨he, rfl⟩ := find_eq_some.mp hf
      have hout : ¬ e ∈ Buffer.swept now w.buffer := fun hm => find_eq_none.mp hk e hm rfl
      by_cases hx : Expired now e.key
      · exact .inr (.inl ⟨now, order, by simp, hx⟩)
      · have hs : Buffer.Settled w.buffer e := by
          by_contra hs
          exact hout (mem_keep.mpr ⟨he, by simp [hx, hs]⟩)
        refine .inr (.inr ⟨(h.passed_of_settled hes.of_append he hs).mono, ?_⟩)
        rw [made_quiet fun _ => rfl]
        exact h.exact_of_saved he (hwhole e he hx) hs.1
  case carried =>
    intro f hf v hv
    rcases mem_append.mp hf with hf | hf
    · exact h'.carried f hf v hv
    · obtain rfl := mem_singleton.mp hf
      obtain ⟨e, he, rfl, hx, -⟩ := mem_started hv
      exact (Version.of_made (hwhole e he hx)).mono
  case stored => exact h'.stored
  case written =>
    intro f hf v hv
    rcases mem_append.mp hf with hf | hf
    · exact h'.written f hf v hv
    · obtain rfl := mem_singleton.mp hf
      simp [World.started] at hv
  case complete =>
    intro f hf ho
    rcases mem_append.mp hf with hf | hf
    · exact h'.complete f hf ho
    · obtain rfl := mem_singleton.mp hf
      simp only [World.started] at ho
      split at ho
      next hnil => simp [Flush.Complete, World.started, isEmpty_iff.mp hnil]
      next => cases ho

/-- A flush in the place of one with the same rows and as much written. -/
theorem set (f' : Flush) (hf : w.flushes[i]? = some f) (hv : f'.values = f.values)
    (hn : f'.statements = f.statements) (hc : f'.outcome = .succeeded → f'.Complete) :
    Sound es { w with flushes := w.flushes.set i f' } := by
  have hf := mem_of_getElem? hf
  constructor
  case balanced => exact h.balanced
  case counted => exact h.counted
  case recorded => exact h.recorded
  case saved => exact h.saved
  case gone => exact h.gone
  case stored => exact h.stored
  case carried =>
    intro g hg
    rcases mem_or_eq_of_mem_set hg with hg | rfl
    · exact h.carried g hg
    · rw [hv]
      exact h.carried f hf
  case written =>
    intro g hg
    rcases mem_or_eq_of_mem_set hg with hg | rfl
    · exact h.written g hg
    · rw [hv, hn]
      exact h.written f hf
  case complete =>
    intro g hg
    rcases mem_or_eq_of_mem_set hg with hg | rfl
    · exact h.complete g hg
    · exact hc

/-- The next statement of a flush takes effect. -/
theorem write (hf : w.flushes[i]? = some f) :
    Sound es { w with stored := w.stored.write f.batch, flushes := w.flushes.set i { f with statements := f.statements + 1 } } := by
  have hf := mem_of_getElem? hf
  have hle := Stored.counter_le_write w.stored f.batch
  have hstored := Version.write h.stored f.batch fun v hv =>
    h.carried f hf v (mem_of_mem_drop (mem_of_mem_take hv))
  constructor
  case balanced => exact h.balanced
  case counted => exact h.counted
  case recorded => exact h.recorded
  case saved => exact fun e he => (h.saved e he).trans (hle _ _)
  case gone =>
    intro k hk
    refine (h.gone k hk).imp_right (Or.imp_right fun hp => ⟨hp.1, fun c => ?_⟩)
    apply (hstored k).full
    rw [← hp.2]
    exact hle k .due
  case carried =>
    intro g hg
    rcases mem_or_eq_of_mem_set hg with hg | rfl
    · exact h.carried g hg
    · exact h.carried f hf
  case stored => exact hstored
  case written =>
    intro g hg v hv c
    rcases mem_or_eq_of_mem_set hg with hg | rfl
    · exact (h.written g hg v hv c).trans (hle _ _)
    · have htake : f.values.take (200 * (f.statements + 1)) = f.values.take (200 * f.statements) ++ f.batch := by
        rw [Nat.mul_add, take_add]
        rfl
      rcases mem_append.mp (htake ▸ hv) with hv | hv
      · exact (h.written f hf v hv c).trans (hle _ _)
      · exact Stored.column_le_write hv w.stored c
  case complete =>
    intro g hg ho
    rcases mem_or_eq_of_mem_set hg with hg | rfl
    · exact h.complete g hg ho
    · have : f.values.length ≤ 200 * f.statements := h.complete f hf ho
      show f.values.length ≤ 200 * (f.statements + 1)
      omega

/-- The buffer learns that the rows of a complete flush are stored. -/
theorem acknowledge (hf : f ∈ w.flushes) (hc : f.Complete) :
    Sound es { w with buffer := Buffer.acknowledge w.buffer f.values } where
  balanced e he := by
    obtain ⟨e₀, he₀, hb, -⟩ := Buffer.mem_acknowledge he
    rw [hb]
    exact h.balanced e₀ he₀
  counted e he := by
    obtain ⟨e₀, he₀, hb, -⟩ := Buffer.mem_acknowledge he
    rw [hb]
    exact h.counted e₀ he₀
  recorded e he := by
    obtain ⟨e₀, he₀, hb, -⟩ := Buffer.mem_acknowledge he
    rw [hb]
    exact h.recorded e₀ he₀
  saved e he := by
    obtain ⟨e₀, he₀, hb, hs | ⟨v, hv, hk, hs⟩⟩ := Buffer.mem_acknowledge he
    · rw [hs, hb]
      exact h.saved e₀ he₀
    · rw [hs, ← hk]
      exact h.written f hf v (by rwa [take_of_length_le hc]) .due
  gone k hk := h.gone k ((Buffer.find_acknowledge_eq_none _ _ k).mp hk)
  carried := h.carried
  stored := h.stored
  written := h.written
  complete := h.complete

theorem step {e : Event} (hes : Wellformed (es ++ [e])) : Sound (es ++ [e]) (w.step e) := by
  cases e with
  | record channel d => exact h.record hes
  | snapshot now order => exact h.snapshot hes
  | write i =>
    have h' := h.quiet (e := .write i) fun _ => rfl
    simp only [World.step]
    split
    next f hf => exact h'.write hf
    next => exact h'
  | fail i =>
    have h' := h.quiet (e := .fail i) fun _ => rfl
    simp only [World.step]
    split
    next f hf =>
      split
      next => exact h'.set _ hf rfl rfl fun ho => nomatch ho
      next => exact h'
    next => exact h'
  | acknowledge i =>
    have h' := h.quiet (e := .acknowledge i) fun _ => rfl
    simp only [World.step]
    split
    next f hf =>
      split
      next hc =>
        have hset := h'.set { f with outcome := .succeeded } hf rfl rfl fun _ => hc.2
        have hi : i < w.flushes.length := (List.getElem?_eq_some_iff.mp hf).1
        exact hset.acknowledge (f := { f with outcome := .succeeded }) (mem_set hi _) hc.2
      next => exact h'
    next => exact h'

omit h

theorem run (hes : Wellformed es) : Sound es (World.init.run es) := by
  induction es using List.reverseRecOn with
  | nil => exact .init
  | append_singleton es e ih =>
    rw [World.run_append]
    exact (ih hes.of_append).step hes

end Sound

/-! ### Results -/

namespace World
variable {w : World} {e : Event} {k : ProbeCoverageKey}

theorem counter_le_step (w : World) (e : Event) (k : ProbeCoverageKey) (c : Column) :
    w.stored.counter k c ≤ (w.step e).stored.counter k c := by
  cases e with
  | write i =>
    simp only [step]
    split
    next f hf => exact Stored.counter_le_write w.stored f.batch k c
    next => exact Nat.le_refl _
  | _ =>
    simp only [step]
    repeat' split
    all_goals exact Nat.le_refl _

theorem counter_le_run (w : World) (es : List Event) (k : ProbeCoverageKey) (c : Column) :
    w.stored.counter k c ≤ (w.run es).stored.counter k c := by
  induction es generalizing w with
  | nil => exact Nat.le_refl _
  | cons e es ih => exact (counter_le_step w e k c).trans (ih (w.step e))

/-- Only a sweep takes entries out of the buffer. -/
theorem expired_of_removed {a : ProbeCoverageEntry} (ha : a ∈ w.buffer) (hs : a.saved ≠ a.due)
    (hgone : (w.step e).buffer.find a.key = none) : ∃ now order, e = .snapshot now order ∧ Expired now a.key := by
  have hsome : w.buffer.find a.key ≠ none := by simp [find_eq_some.mpr ⟨ha, rfl⟩]
  cases e with
  | record channel d =>
    simp only [step, Buffer.record, find_put] at hgone
    split at hgone
    next => cases hgone
    next => exact absurd hgone hsome
  | snapshot now order =>
    refine ⟨now, order, rfl, ?_⟩
    by_contra hx
    have hkeep : a ∈ Buffer.swept now w.buffer :=
      mem_keep.mpr ⟨ha, by simp [hx, Buffer.Settled, hs]⟩
    exact find_eq_none.mp hgone a hkeep rfl
  | acknowledge i =>
    simp only [step] at hgone
    repeat' split at hgone
    · exact absurd ((Buffer.find_acknowledge_eq_none _ _ _).mp hgone) hsome
    all_goals exact absurd hgone hsome
  | _ =>
    simp only [step] at hgone
    repeat' split at hgone
    all_goals exact absurd hgone hsome

/-- A flush keeps the rows of its snapshot. -/
theorem values_step (w : World) (e : Event) {i : Nat} {f : Flush} (hf : w.flushes[i]? = some f) :
    ∃ f', (w.step e).flushes[i]? = some f' ∧ f'.values = f.values := by
  have hset : ∀ (j : Nat) (g g' : Flush), w.flushes[j]? = some g → g'.values = g.values →
      ∃ f', (w.flushes.set j g')[i]? = some f' ∧ f'.values = f.values := by
    intro j g g' hg hv
    rw [List.getElem?_set]
    split
    next hj =>
      subst hj
      rw [hf] at hg
      cases hg
      rw [if_pos (List.getElem?_eq_some_iff.mp hf).1]
      exact ⟨g', rfl, hv⟩
    next => exact ⟨f, hf, rfl⟩
  cases e with
  | record channel d => exact ⟨f, hf, rfl⟩
  | snapshot now order =>
    refine ⟨f, ?_, rfl⟩
    simp only [step]
    rw [List.getElem?_append_left (List.getElem?_eq_some_iff.mp hf).1, hf]
  | write j =>
    simp only [step]
    split
    next g hg => exact hset j g _ hg rfl
    next => exact ⟨f, hf, rfl⟩
  | _ j =>
    simp only [step]
    split
    next g hg =>
      split
      next => exact hset j g _ hg rfl
      next => exact ⟨f, hf, rfl⟩
    next => exact ⟨f, hf, rfl⟩

theorem values_run (w : World) (es : List Event) {i : Nat} {f : Flush} (hf : w.flushes[i]? = some f) :
    ∃ f', (w.run es).flushes[i]? = some f' ∧ f'.values = f.values := by
  induction es generalizing w f with
  | nil => exact ⟨f, hf, rfl⟩
  | cons e es ih =>
    obtain ⟨f₁, hf₁, hv₁⟩ := values_step w e hf
    obtain ⟨f₂, hf₂, hv₂⟩ := ih (w.step e) hf₁
    exact ⟨f₂, hf₂, hv₂.trans hv₁⟩

end World

/-- At a snapshot, a key that no snapshot found expired is exact in the table already,
or its whole count is among the rows of the flush. -/
theorem Sound.exact_or_carried {es : List Event} {w : World} (h : Sound es w) {now : Time} {order : MapOrder}
    {k : ProbeCoverageKey} (hk : ¬ ExpiredIn (es ++ [.snapshot now order]) k) :
    (∀ c, w.stored.counter k c = made es k c) ∨
      ∃ v ∈ (World.started now order w.buffer).values, v.key = k ∧ ∀ c, v.column c = made es k c := by
  cases hf : w.buffer.find k with
  | none =>
    left
    rcases h.gone k hf with hr | hx | hp
    · intro c
      have hle := (h.stored k).le c
      rw [made, hr] at hle ⊢
      exact Nat.le_zero.mp hle
    · exact absurd hx.mono hk
    · exact hp.2
  | some e =>
    obtain ⟨he, rfl⟩ := find_eq_some.mp hf
    have hwhole := (h.counted e he).resolve_right fun hr => hk hr.expiredIn.mono
    by_cases hs : e.saved = e.due
    · exact .inl (h.exact_of_saved he hwhole hs)
    · have hx : ¬ Expired now e.key := fun hx => hk ⟨now, order, by simp, hx⟩
      refine .inr ⟨e.toProbeCoverageBucket, ?_, rfl, hwhole⟩
      refine (order.2 _).mem_iff.mpr (mem_map.mpr ⟨e, mem_filter.mpr ⟨he, ?_⟩, rfl⟩)
      simp [hx, hs]

/-- A flush that succeeded leaves the table exact for every key without a dispatch
since its snapshot, unless the key had expired. -/
theorem exact_after_flush {past later : List Event} {now : Time} {order : MapOrder} {k : ProbeCoverageKey} {f : Flush}
    (hes : Wellformed (past ++ .snapshot now order :: later))
    (hf : (World.init.run (past ++ .snapshot now order :: later)).flushes[(World.init.run past).flushes.length]? = some f)
    (hdone : f.outcome = .succeeded) (hquiet : recordsOf later k = [])
    (hk : ¬ ExpiredIn (past ++ [.snapshot now order]) k) (c : Column) :
    (World.init.run (past ++ .snapshot now order :: later)).stored.counter k c =
      made (past ++ .snapshot now order :: later) k c := by
  have hpast := Sound.run hes.of_append
  have hlast := Sound.run hes
  have hmade : made (past ++ .snapshot now order :: later) k = made past k := by
    funext c
    rw [made, made, recordsOf_append]
    have : recordsOf (.snapshot now order :: later) k = [] := hquiet
    rw [this, append_nil]
  have hrun : World.init.run (past ++ .snapshot now order :: later) =
      ((World.init.run past).step (.snapshot now order)).run later := World.run_append _ _ _
  apply (hlast.stored k).full
  rw [hmade]
  rcases hpast.exact_or_carried hk with h | ⟨v, hv, rfl, h⟩
  · rw [← h, World.run_append]
    exact World.counter_le_run _ _ _ _
  · have hstart : ((World.init.run past).step (.snapshot now order)).flushes[(World.init.run past).flushes.length]? =
        some (World.started now order (World.init.run past).buffer) := by
      simp [World.step]
    obtain ⟨f', hf', hvals⟩ := World.values_run _ later hstart
    rw [← hrun, hf] at hf'
    cases hf'
    have hmem := mem_of_getElem? hf
    have hcomplete := hlast.complete f hmem hdone
    rw [← h]
    exact hlast.written f hmem v (by rw [take_of_length_le hcomplete, hvals]; exact hv) .due

/-- The counters are neither lost nor inflated over the run `es`. -/
structure Kept (es : List Event) : Prop where
  buffer_balanced : ∀ e ∈ (World.init.run es).buffer, e.Balanced
  stored_balanced : ∀ r ∈ (World.init.run es).stored, r.Balanced
  stored_le_made : ∀ k c, (World.init.run es).stored.counter k c ≤ made es k c
  never_decreases : ∀ past later, es = past ++ later → ∀ k c,
    (World.init.run past).stored.counter k c ≤ (World.init.run es).stored.counter k c
  removed_expired : ∀ past e later, es = past ++ e :: later →
    ∀ a ∈ (World.init.run past).buffer, a.saved ≠ a.due → (World.init.run (past ++ [e])).buffer.find a.key = none →
      ∃ now order, e = .snapshot now order ∧ Expired now a.key
  exact_after_flush : ∀ past now order later f, es = past ++ .snapshot now order :: later →
    (World.init.run es).flushes[(World.init.run past).flushes.length]? = some f → f.outcome = .succeeded →
    ∀ k, recordsOf later k = [] → ¬ ExpiredIn (past ++ [.snapshot now order]) k →
      ∀ c, (World.init.run es).stored.counter k c = made es k c

theorem coverage_kept {es : List Event} (hes : Wellformed es) : Kept es := by
  have h := Sound.run hes
  constructor
  case buffer_balanced => exact h.balanced
  case stored_balanced =>
    intro r hr
    obtain ⟨ds, -, hds⟩ := h.stored r.key
    exact balanced_of_countP fun c => (Stored.counter_of_mem hr c).symm.trans (hds c)
  case stored_le_made => exact fun k c => (h.stored k).le c
  case never_decreases =>
    intro past later heq k c
    rw [heq, World.run_append]
    exact World.counter_le_run _ _ _ _
  case removed_expired =>
    intro past e later _ a ha hs hgone
    rw [World.run_append] at hgone
    exact World.expired_of_removed ha hs hgone
  case exact_after_flush =>
    intro past now order later f heq hf hdone k hquiet hk
    subst heq
    exact exact_after_flush hes hf hdone hquiet hk

def channelOne : ChannelKey := ⟨"site", 1⟩

/-- Two dispatches of one minute, the second while the flush of the first is under way. -/
def overlappingFlushes : List Event :=
  [.record channelOne ⟨0, true, .admitted⟩, .snapshot 1000000000 .same, .write 0,
    .record channelOne ⟨2000000000, true, .globalConcurrency⟩, .snapshot 3000000000 .same, .acknowledge 0,
    .write 1, .acknowledge 1]

theorem coverage_kept_overlapping : Wellformed overlappingFlushes ∧ Kept overlappingFlushes :=
  have h : Wellformed overlappingFlushes := .of_clock (by decide) (by decide) (by decide)
  ⟨h, coverage_kept h⟩

/-- A dispatch is no more than the retention older than an earlier snapshot. -/
def WithinRetention : Event → Event → Prop
  | .snapshot now _, .record _ d => now - probeCoverageRetention ≤ d.time
  | _, _ => True

instance : DecidableRel WithinRetention
  | .snapshot _ _, .record _ _ => inferInstanceAs (Decidable (_ ≤ _))
  | .snapshot _ _, .snapshot _ _ | .snapshot _ _, .write _ | .snapshot _ _, .fail _ | .snapshot _ _, .acknowledge _ =>
    inferInstanceAs (Decidable True)
  | .record _ _, _ | .write _, _ | .fail _, _ | .acknowledge _, _ => inferInstanceAs (Decidable True)

/-- The dispatch of second 10 is saved. A snapshot 48 hours and 30 seconds after the start
of the minute drops the minute, although the dispatch of second 45 is still to come; a
flush whose clock is behind then writes the count of that dispatch alone. -/
def minuteRestarted : List Event :=
  [.record channelOne ⟨10000000000, true, .admitted⟩, .snapshot 11000000000 .same, .write 0, .acknowledge 0,
    .snapshot 172830000000000 .same, .record channelOne ⟨45000000000, true, .globalConcurrency⟩,
    .snapshot 46000000000 .same, .write 2, .acknowledge 2]

/-- The dispatch was never written when a snapshot finds its minute too old: that flush
has nothing to write and succeeds. -/
def expiredUnsaved : List Event :=
  [.record channelOne ⟨10000000000, true, .admitted⟩, .snapshot 11000000000 .same, .fail 0,
    .snapshot 172830000000000 .same]

/-- Before 1970 a minute is negative, and the zero that the latest minute of a stream starts
from is past it: a saved entry is dropped while its minute still runs. -/
def beforeEpoch : List Event :=
  [.record channelOne ⟨-50000000000, true, .admitted⟩, .snapshot (-49000000000) .same, .write 0, .acknowledge 0,
    .snapshot (-48000000000) .same, .record channelOne ⟨-47000000000, true, .globalConcurrency⟩,
    .snapshot (-46000000000) .same, .write 2, .acknowledge 2]

theorem minute_restarted_unbalanced :
    (minuteRestarted.Pairwise InOrder ∧ minuteRestarted.Pairwise WithinRetention ∧
      ∃ r ∈ (World.init.run minuteRestarted).stored, ¬ r.Balanced) ∧
    (expiredUnsaved.Pairwise InOrder ∧ expiredUnsaved.Pairwise WithinRetention ∧
      (World.init.run expiredUnsaved).flushes.map Flush.outcome = [.failed, .succeeded] ∧
      (World.init.run expiredUnsaved).stored.counter ⟨channelOne, 0, true⟩ .due = 0 ∧
      made expiredUnsaved ⟨channelOne, 0, true⟩ .due = 1) ∧
    (beforeEpoch.Pairwise InOrder ∧ (snapshotTimes beforeEpoch).Pairwise (· ≤ ·) ∧
      ∃ r ∈ (World.init.run beforeEpoch).stored, ¬ r.Balanced) := by
  refine ⟨⟨by decide, by decide, ?_⟩, ⟨by decide, by decide, by decide, by decide, by decide⟩,
    by decide, by decide, ?_⟩
  · exact ⟨⟨⟨1, 1, 1, 0, 0, 45000000000, some 10000000000, some 45000000000⟩, channelOne, 0, true⟩,
      by decide, by decide⟩
  · exact ⟨⟨⟨1, 1, 1, 0, 0, -47000000000, some (-50000000000), some (-47000000000)⟩, channelOne, -60, true⟩,
      by decide, by decide⟩

end ControlTower.Tuning.ProbeCoverage
