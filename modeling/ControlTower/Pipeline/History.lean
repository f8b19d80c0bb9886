import Mathlib.Data.List.DropRight
import ControlTower.Pipeline.Transitions

/-! What a seal says about the past.

A run keeps a trace of the operations that succeeded. `History` ties the state to
its trace: an organized day was organized since its rows last changed, an active
verification was reserved after that, and a seal was finished after both, all at
the day's own revision; and a work that is over is held by nobody and cannot come
back, because tokens only grow. One lemma a kind of event keeps it. -/
namespace ControlTower.Pipeline
open Go List Option Finmap

/-- An operation that succeeded. -/
inductive Event where
  | rows (changed : AList fun _ : String => Bool)
  | reserved (w : Work)
  | finished (w : Work) (code sealVersion : String)
  | released (w : Work)
  | recovered (dropped : Finmap fun _ : Task => Work)

/-- The event marks the date as changed. -/
def Event.marks (date : String) : Event → Bool
  | .rows changed => decide (Marks changed date)
  | _ => false

/-- What happened since the date was last marked as changed. -/
def since (date : String) (trace : List Event) : List Event :=
  trace.rtakeWhile fun e => !e.marks date

theorem since_concat (date : String) (trace : List Event) (e : Event) :
    since date (trace ++ [e]) = if e.marks date then [] else since date trace ++ [e] := by
  unfold since
  cases h : e.marks date with
  | true => rw [rtakeWhile_concat_neg _ _ _ (by simp [h])]; rfl
  | false => rw [rtakeWhile_concat_pos _ _ _ (by simp [h])]; rfl

/-- What a run does next: a call, or new settings between two calls. -/
inductive Action where
  | call (c : Call)
  | configure (settings : Settings)

/-- The event a call adds to the trace, if it succeeds. -/
def Call.event (s : State) (c : Call) : Option Event :=
  if (c.apply s).2 ≠ none then none else
  match c with
  | .beginRound _ _ => none
  | .observeCommittedRows _ changed => some (.rows changed)
  | .reserve task => match (s.reserve task).2 with
    | .ok w => some (.reserved w)
    | .error _ => none
  | .finish w code sealVersion _ => some (.finished w code sealVersion)
  | .release w => some (.released w)
  | .recoverAfterFence => some (.recovered s.active)

def Action.step (s : State) (trace : List Event) : Action → State × List Event
  | .configure settings => ({s with settings := settings}, trace)
  | .call c => ((c.apply s).1, trace ++ (c.event s).toList)

def run (s : State) (trace : List Event) : List Action → State × List Event
  | [] => (s, trace)
  | a :: rest => run (a.step s trace).1 (a.step s trace).2 rest

/-- `New` with `SchemaReady` set. -/
def start (settings : Settings) : State := {new settings with schemaReady := true}

/-! ### What the trace has to contain -/

/-- An organization of the date was finished at the revision. -/
def Organized (date : String) (revision : UInt64) (l : List Event) : Prop :=
  ∃ w : Work, w.task = .organization ∧ w.date = date ∧ w.revision = revision ∧
    [.finished w "" ""].Sublist l

/-- ... and the verification was reserved after it. -/
def Verifying (v : Work) (l : List Event) : Prop :=
  ∃ w : Work, w.task = .organization ∧ w.date = v.date ∧ w.revision = v.revision ∧
    [.finished w "" "", .reserved v].Sublist l

/-- ... and finished with the version. -/
def Sealed (date : String) (revision : UInt64) (version : String) (l : List Event) : Prop :=
  ∃ w v : Work, w.task = .organization ∧ w.date = date ∧ w.revision = revision ∧
    v.task = .verification ∧ v.date = date ∧ v.revision = revision ∧
    [.finished w "" "", .reserved v, .finished v "" version].Sublist l

/-- The work was finished, released or dropped by a recovery. -/
def Retired (w : Work) (trace : List Event) : Prop :=
  (∃ code version, .finished w code version ∈ trace) ∨ .released w ∈ trace ∨
    ∃ dropped task, .recovered dropped ∈ trace ∧ dropped.lookup task = some w

section Mono
variable {l : List Event} {e : Event}

theorem Organized.append {date : String} {revision : UInt64} (h : Organized date revision l) :
    Organized date revision (l ++ [e]) := by
  obtain ⟨w, h₁, h₂, h₃, hs⟩ := h
  exact ⟨w, h₁, h₂, h₃, hs.trans (sublist_append_left l [e])⟩

theorem Verifying.append {v : Work} (h : Verifying v l) : Verifying v (l ++ [e]) := by
  obtain ⟨w, h₁, h₂, h₃, hs⟩ := h
  exact ⟨w, h₁, h₂, h₃, hs.trans (sublist_append_left l [e])⟩

theorem Sealed.append {date version : String} {revision : UInt64}
    (h : Sealed date revision version l) : Sealed date revision version (l ++ [e]) := by
  obtain ⟨w, v, h₁, h₂, h₃, h₄, h₅, h₆, hs⟩ := h
  exact ⟨w, v, h₁, h₂, h₃, h₄, h₅, h₆, hs.trans (sublist_append_left l [e])⟩

/-- A verification reserved on an organized date follows its organization. -/
theorem Organized.reserve {v : Work} (h : Organized v.date v.revision l) :
    Verifying v (l ++ [.reserved v]) := by
  obtain ⟨w, h₁, h₂, h₃, hs⟩ := h
  exact ⟨w, h₁, h₂, h₃, hs.append (List.Sublist.refl [Event.reserved v])⟩

theorem Verifying.finish {v : Work} (h : Verifying v l) (hv : v.task = .verification)
    (version : String) : Sealed v.date v.revision version (l ++ [.finished v "" version]) := by
  obtain ⟨w, h₁, h₂, h₃, hs⟩ := h
  exact ⟨w, v, h₁, h₂, h₃, hv, rfl, rfl, hs.append (List.Sublist.refl [Event.finished v "" version])⟩

end Mono

/-! ### The invariant -/

/-- A day and what happened since it last changed. -/
structure DayHistory (date : String) (d : Day) (l : List Event) : Prop where
  revision : d.revision ≠ 0
  organized : d.organizedRevision = d.revision → Organized date d.revision l
  published : ∀ r, d.result = some r → r.sealVersion ≠ "" → r.revision = d.revision →
    Sealed date d.revision r.sealVersion l

variable {date : String}

theorem DayHistory.append {d : Day} {l : List Event} (h : DayHistory date d l)
    (e : Event) : DayHistory date d (l ++ [e]) :=
  ⟨h.revision, fun ho => (h.organized ho).append, fun r hr hs hv => (h.published r hr hs hv).append⟩

structure History (s : State) (trace : List Event) : Prop where
  day : ∀ date d, s.days.lookup date = some d → DayHistory date d (since date trace)
  work : ∀ task w, s.active.lookup task = some w → w.task = task ∧ w.token ≤ s.nextToken
  verifying : ∀ v, s.active.lookup .verification = some v → ∃ d, s.days.lookup v.date = some d ∧
    v.revision ≤ d.revision ∧ (v.revision = d.revision → Verifying v (since v.date trace))
  retired : ∀ w, Retired w trace → w.token ≤ s.nextToken ∧ s.active.lookup w.task ≠ some w

theorem start_history (settings : Settings) : History (start settings) [] := by
  have hday : ∀ date, (start settings).days.lookup date = none := fun _ => lookup_empty _
  have hwork : ∀ task, (start settings).active.lookup task = none := fun _ => lookup_empty _
  refine ⟨?_, ?_, ?_, ?_⟩
  · intro date d hd
    rw [hday] at hd
    cases hd
  · intro task w hw
    rw [hwork] at hw
    cases hw
  · intro v hv
    rw [hwork] at hv
    cases hv
  · rintro w (⟨_, _, h⟩ | h | ⟨_, _, h, _⟩) <;> cases h

variable {w : Work} {trace : List Event}

theorem retired_concat {e : Event} (h : Retired w (trace ++ [e])) : Retired w trace ∨ Retired w [e] := by
  rcases h with ⟨code, version, h⟩ | h | ⟨dropped, task, h, hl⟩
  · exact (mem_append.mp h).imp (fun h => .inl ⟨code, version, h⟩)
      (fun h => .inl ⟨code, version, h⟩)
  · exact (mem_append.mp h).imp (fun h => .inr (.inl h)) (fun h => .inr (.inl h))
  · exact (mem_append.mp h).imp (fun h => .inr (.inr ⟨dropped, task, h, hl⟩))
      (fun h => .inr (.inr ⟨dropped, task, h, hl⟩))

theorem since_quiet {e : Event} (he : ∀ date, e.marks date = false) (date : String)
    (trace : List Event) : since date (trace ++ [e]) = since date trace ++ [e] := by
  rw [since_concat, he]
  rfl

/-- The days, the reservations and the tokens are all the history speaks of. -/
theorem History.congr {s s' : State} (h : History s trace)
    (hd : s'.days = s.days) (ha : s'.active = s.active) (ht : s'.nextToken = s.nextToken) :
    History s' trace := by
  refine ⟨?_, ?_, ?_, ?_⟩
  · rw [hd]; exact h.day
  · rw [ha, ht]; exact h.work
  · rw [ha, hd]; exact h.verifying
  · rw [ha, ht]; exact h.retired

/-- A work that its holder gives back, whatever that does to the days. -/
theorem History.giveBack {s s' : State} (h : History s trace)
    {e : Event} (he : ∀ date, e.marks date = false) (hret : ∀ x, Retired x [e] → x = w)
    (hw : s.active.lookup w.task = some w) (ha : s'.active = s.active.erase w.task)
    (ht : s'.nextToken = s.nextToken)
    (hday : ∀ date d, s'.days.lookup date = some d → DayHistory date d (since date trace ++ [e]))
    (hkeep : ∀ date d, s.days.lookup date = some d →
      ∃ d', s'.days.lookup date = some d' ∧ d'.revision = d.revision) :
    History s' (trace ++ [e]) := by
  have hact : ∀ t x, s'.active.lookup t = some x → s.active.lookup t = some x := by
    intro t x hx
    rw [ha] at hx
    by_cases hteq : t = w.task
    · rw [hteq, lookup_erase] at hx
      cases hx
    · rwa [lookup_erase_ne hteq] at hx
  refine ⟨?_, ?_, ?_, ?_⟩
  · intro date d hd
    rw [since_quiet he]
    exact hday date d hd
  · intro t x hx
    rw [ht]
    exact h.work t x (hact t x hx)
  · intro v hv
    obtain ⟨d, hd, hle, hver⟩ := h.verifying v (hact _ v hv)
    obtain ⟨d', hd', hrev⟩ := hkeep v.date d hd
    refine ⟨d', hd', hrev ▸ hle, fun heq => ?_⟩
    rw [since_quiet he]
    exact (hver (heq.trans hrev)).append
  · intro x hx
    rw [ht]
    rcases retired_concat hx with hx | hx
    · exact ⟨(h.retired x hx).1, fun hl => (h.retired x hx).2 (hact _ x hl)⟩
    · obtain rfl := hret x hx
      refine ⟨(h.work _ x hw).2, fun hl => ?_⟩
      rw [ha, lookup_erase] at hl
      cases hl

/-! ### One lemma an event -/

variable {s : State}

theorem rows_history (h : History s trace) {observed : List String}
    {changed : AList fun _ : String => Bool} (ha : s.acceptsRows observed changed = true) :
    History (s.rowsObserved observed changed) (trace ++ [.rows changed]) := by
  have hroom := (acceptsRows_spec ha).2
  have hlook := rowsObserved_lookup s observed changed
  obtain ⟨f, m, he, -, -⟩ := rowsObserved_frame s observed changed
  have hactive : (s.rowsObserved observed changed).active = s.active := by rw [he]
  have htoken : (s.rowsObserved observed changed).nextToken = s.nextToken := by rw [he]
  refine ⟨?_, ?_, ?_, ?_⟩
  · intro date d hd
    rw [hlook] at hd
    obtain ⟨d₀, hd₀, rfl⟩ := map_eq_some_iff.mp hd
    rw [since_concat]
    by_cases hm : Marks changed date
    · -- The change leaves nothing organized and nothing published.
      rw [if_pos hm] at hd₀
      obtain rfl := Option.some.inj hd₀
      have hne : ((s.observedDay observed date).getD {}).revision + 1 ≠ 0 := by
        unfold State.observedDay
        cases hl : s.days.lookup date with
        | some d₁ =>
          have := (hroom date hm).2 d₁ hl
          simp only [getD_some]
          grind [maxUint64]
        | none => by_cases ho : date ∈ observed <;> simp [ho]
      exact ⟨hne, fun ho => absurd ho.symm hne, fun r hr => by cases hr⟩
    · rw [if_neg hm] at hd₀
      rw [if_neg (by simpa [Event.marks] using hm)]
      unfold State.observedDay at hd₀
      cases hl : s.days.lookup date with
      | some d₁ =>
        simp only [hl, Option.some.injEq] at hd₀
        subst hd₀
        have hh := (h.day date d₁ hl).append (.rows changed)
        exact ⟨hh.revision, hh.organized, hh.published⟩
      | none =>
        simp only [hl, ite_none_right_eq_some, Option.some.injEq] at hd₀
        obtain ⟨-, rfl⟩ := hd₀
        exact ⟨show (1 : UInt64) ≠ 0 by decide,
          fun ho => absurd (show (0 : UInt64) = 1 from ho) (by decide), fun r hr => by cases hr⟩
  · rw [hactive, htoken]
    exact h.work
  · intro v hv
    rw [hactive] at hv
    obtain ⟨d, hd, hle, hver⟩ := h.verifying v hv
    obtain ⟨d', hd', -, hrev⟩ := rowsObserved_kept ha hd
    refine ⟨d', hd', UInt64.le_trans hle hrev, fun heq => ?_⟩
    -- At the revision it was reserved for, the day was not marked.
    have hm : ¬ Marks changed v.date := by
      intro hm
      rw [hlook, if_pos hm] at hd'
      have hobs : s.observedDay observed v.date = some d := by simp [State.observedDay, hd]
      rw [hobs] at hd'
      obtain rfl := Option.some.inj hd'
      have := (hroom v.date hm).2 d hd
      simp only [getD_some, Day.change] at heq
      grind [maxUint64]
    have hsame : d'.revision = d.revision := by
      rw [hlook, if_neg hm] at hd'
      have hobs : s.observedDay observed v.date = some d := by simp [State.observedDay, hd]
      rw [hobs] at hd'
      obtain rfl := Option.some.inj hd'
      rfl
    rw [since_concat, if_neg (by simpa [Event.marks] using hm)]
    exact (hver (heq.trans hsame)).append
  · intro w hw
    rw [hactive, htoken]
    rcases retired_concat hw with hw | hw
    · exact h.retired w hw
    · rcases hw with ⟨_, _, hw⟩ | hw | ⟨_, _, hw, _⟩ <;> simp at hw

theorem reserve_history {s s' : State} (h : History s trace) {task : Task}
    (hr : s.reserve task = (s', .ok w)) : History s' (trace ++ [.reserved w]) := by
  obtain ⟨-, -, -, htok, hrt, hwt, hwk, rfl⟩ := reserve_spec hr
  have hquiet : ∀ date, (Event.reserved w).marks date = false := fun _ => rfl
  have hlt : s.nextToken < s.nextToken + 1 := by grind [maxUint64]
  refine ⟨?_, ?_, ?_, ?_⟩
  · intro date d hd
    rw [since_quiet hquiet]
    exact (h.day date d hd).append _
  · intro t x hx
    by_cases hteq : t = task
    · subst hteq
      rw [lookup_insert] at hx
      obtain rfl := Option.some.inj hx
      exact ⟨hwt, by rw [hwk]; exact UInt64.le_refl _⟩
    · rw [lookup_insert_of_ne _ hteq] at hx
      have hold := h.work t x hx
      exact ⟨hold.1, UInt64.le_trans hold.2 (UInt64.le_of_lt hlt)⟩
  · intro v hv
    rw [since_quiet hquiet]
    by_cases hteq : Task.verification = task
    · subst hteq
      rw [lookup_insert] at hv
      obtain rfl := Option.some.inj hv
      obtain ⟨-, -, -, -, -, -, -, d, hd, hrev, horg⟩ := reserveDate_spec hrt
      refine ⟨d, hd, by rw [hrev]; exact UInt64.le_refl _, fun heq => ?_⟩
      have hdone := (h.day w.date d hd).organized (horg rfl)
      rw [hrev] at hdone
      exact hdone.reserve
    · rw [lookup_insert_of_ne _ hteq] at hv
      obtain ⟨d, hd, hle, hver⟩ := h.verifying v hv
      exact ⟨d, hd, hle, fun heq => (hver heq).append⟩
  · intro x hx
    rcases retired_concat hx with hx | hx
    · obtain ⟨hle, hne⟩ := h.retired x hx
      refine ⟨UInt64.le_trans hle (UInt64.le_of_lt hlt), fun hl => ?_⟩
      by_cases hteq : x.task = task
      · -- The new token is one no work ever had.
        rw [hteq, lookup_insert] at hl
        obtain rfl := Option.some.inj hl
        rw [hwk] at hle
        grind
      · rw [lookup_insert_of_ne _ hteq] at hl
        exact hne hl
    · rcases hx with ⟨_, _, hx⟩ | hx | ⟨_, _, hx, _⟩ <;> simp at hx

theorem retired_finished {x w : Work} {code version : String}
    (h : Retired x [.finished w code version]) : x = w := by
  rcases h with ⟨_, _, h⟩ | h | ⟨_, _, h, _⟩
  · simp only [List.mem_singleton, Event.finished.injEq] at h
    exact h.1
  · simp at h
  · simp at h

theorem finish_history {s s' : State} (h : History s trace)
    {code version : String} {now : Now} (hf : s.finish w code version now = (s', none)) :
    History s' (trace ++ [.finished w code version]) := by
  obtain ⟨howns, hfin⟩ := finish_spec hf
  obtain ⟨hw, -⟩ := owns_lookup howns
  have hquiet : ∀ date, (Event.finished w code version).marks date = false := fun _ => rfl
  have hsame : ∀ date d, s.days.lookup date = some d →
      DayHistory date d (since date trace ++ [.finished w code version]) :=
    fun date d hd => (h.day date d hd).append _
  -- The three dated outcomes replace the work's day by one at the same revision.
  have hset : ∀ d d', s.days.lookup w.date = some d → d'.revision = d.revision →
      DayHistory w.date d' (since w.date trace ++ [.finished w code version]) →
      History ((s.setDay w.date d').drop w.task) (trace ++ [.finished w code version]) := by
    intro d d' hd hrev hd'
    refine h.giveBack hquiet (fun x hx => retired_finished hx) hw rfl rfl ?_ ?_
    · intro date e he
      by_cases hdate : date = w.date
      · subst hdate
        simp only [State.drop, State.setDay, lookup_insert, Option.some.injEq] at he
        rwa [← he]
      · simp only [State.drop, State.setDay, lookup_insert_of_ne _ hdate] at he
        exact hsame date e he
    · intro date e he
      by_cases hdate : date = w.date
      · subst hdate
        rw [hd] at he
        obtain rfl := Option.some.inj he
        exact ⟨d', lookup_insert _, hrev⟩
      · exact ⟨e, by simp only [State.drop, State.setDay, lookup_insert_of_ne _ hdate, he], rfl⟩
  cases hfin with
  | failed d hd hr hdate hcode hlen hseal =>
    have hh := hsame w.date d hd
    refine hset d _ hd rfl ⟨hh.revision, hh.organized, ?_⟩
    rintro r hr hs -
    obtain rfl := Option.some.inj hr
    exact absurd rfl hs
  | organized d hd hr hdate hcode htask hseal =>
    have hh := hsame w.date d hd
    subst hcode hseal
    refine hset d _ hd rfl ⟨hh.revision, fun _ => ?_, hh.published⟩
    exact ⟨w, htask, rfl, hr.symm, sublist_append_right _ _⟩
  | sealed d hd hr hdate hcode htask hseal hlen =>
    have hh := hsame w.date d hd
    subst hcode
    refine hset d _ hd rfl ⟨hh.revision, hh.organized, ?_⟩
    rintro r hres - -
    obtain rfl := Option.some.inj hres
    -- The work still holds the day's revision, so its own history is the day's.
    obtain ⟨d₁, hd₁, -, hver⟩ := h.verifying w (htask ▸ hw)
    rw [hd] at hd₁
    obtain rfl := Option.some.inj hd₁
    have hpub := (hver hr.symm).finish htask version
    rwa [← hr] at hpub
  | migrated hdate hcode htask hseal =>
    exact h.giveBack hquiet (fun x hx => retired_finished hx) hw rfl rfl hsame
      (fun date d hd => ⟨d, hd, rfl⟩)
  | undated hdate hcode htask hseal =>
    exact h.giveBack hquiet (fun x hx => retired_finished hx) hw rfl rfl hsame
      (fun date d hd => ⟨d, hd, rfl⟩)

theorem release_history (h : History s trace)
    (hw : s.active.lookup w.task = some w) : History (s.drop w.task) (trace ++ [.released w]) := by
  refine h.giveBack (fun _ => rfl) ?_ hw rfl rfl (fun date d hd => (h.day date d hd).append _)
    (fun date d hd => ⟨d, hd, rfl⟩)
  rintro x (⟨_, _, hx⟩ | hx | ⟨_, _, hx, _⟩)
  · simp at hx
  · simpa using hx
  · simp at hx

theorem recover_history (h : History s trace) :
    History s.recoverAfterFence (trace ++ [.recovered s.active]) := by
  have hquiet : ∀ date, (Event.recovered s.active).marks date = false := fun _ => rfl
  have hnone : ∀ task, s.recoverAfterFence.active.lookup task = none := fun _ => lookup_empty _
  refine ⟨?_, ?_, ?_, ?_⟩
  · intro date d hd
    rw [since_quiet hquiet]
    exact (h.day date d hd).append _
  · intro t x hx
    rw [hnone] at hx
    cases hx
  · intro v hv
    rw [hnone] at hv
    cases hv
  · intro x hx
    refine ⟨?_, by simp [hnone]⟩
    rcases retired_concat hx with hx | ⟨_, _, hx⟩ | hx | ⟨dropped, task, hx, hl⟩
    · exact (h.retired x hx).1
    · simp at hx
    · simp at hx
    · simp only [List.mem_singleton, Event.recovered.injEq] at hx
      exact (h.work task x (hx ▸ hl)).2

/-! ### Whole runs -/

theorem call_history (h : History s trace) (c : Call) :
    History (c.apply s).1 (trace ++ (c.event s).toList) := by
  by_cases he : (c.apply s).2 = none
  swap
  · -- A call that refused changed nothing and left no event.
    have hev : c.event s = none := by simp [Call.event, he]
    rw [call_refused s c he, hev]
    simpa using h
  cases c with
  | beginRound now location =>
    have hev : (Call.beginRound now location).event s = none := by simp [Call.event]
    rw [hev]
    simp only [Call.apply, State.beginRound, toList_none, append_nil]
    split
    · exact h
    · split
      · exact h
      · split
        · exact h
        · exact h.congr rfl rfl rfl
  | observeCommittedRows observed changed =>
    simp only [Call.event, he, ne_eq, not_true_eq_false, if_false, toList_some]
    simp only [Call.apply, observeCommittedRows_eq] at he ⊢
    split at he
    · rename_i ha
      rw [if_pos ha]
      exact rows_history h ha
    · cases he
  | reserve task =>
    simp only [Call.event, he, ne_eq, not_true_eq_false, if_false]
    cases hr : s.reserve task with
    | mk s' r =>
      simp only [Call.apply, hr] at he ⊢
      cases r with
      | error e => cases he
      | ok w => exact reserve_history h hr
  | finish work code sealVersion now =>
    simp only [Call.event, he, ne_eq, not_true_eq_false, if_false, toList_some]
    exact finish_history h (Prod.ext rfl he)
  | release work =>
    simp only [Call.event, he, ne_eq, not_true_eq_false, if_false, toList_some]
    simp only [Call.apply, State.release] at he ⊢
    split at he
    · cases he
    · rename_i howns
      rw [if_neg howns]
      exact release_history h (owns_lookup (by simpa using howns)).1
  | recoverAfterFence =>
    simp only [Call.event, he, ne_eq, not_true_eq_false, if_false, toList_some]
    exact recover_history h

theorem run_history (h : History s trace) (actions : List Action) :
    History (run s trace actions).1 (run s trace actions).2 := by
  induction actions generalizing s trace with
  | nil => exact h
  | cons a rest ih =>
    cases a with
    | configure settings => exact ih (h.congr rfl rfl rfl)
    | call c => exact ih (call_history h c)

/-- A sealed day carries a result of its own revision with a version. -/
theorem dayState_sealed (h : s.dayState date = .sealed) :
    ∃ d r, s.days.lookup date = some d ∧ d.result = some r ∧ r.revision = d.revision ∧
      r.sealVersion ≠ "" := by
  unfold State.dayState at h
  cases hd : s.days.lookup date with
  | none => simp [hd] at h
  | some d =>
    simp only [hd] at h
    split at h
    · cases h
    split at h
    · cases h
    split at h
    · cases h
    split at h
    · cases h
    split at h
    · rename_i r hr
      obtain ⟨hres, hrev⟩ := filter_eq_some_iff.mp hr
      split at h
      · rename_i hseal
        exact ⟨d, r, rfl, hres, by simpa using hrev, by simpa using hseal⟩
      · cases h
    · split at h
      · cases h
      · split at h <;> cases h

/-- Rows that change a date leave it without a result. -/
theorem rowsObserved_not_sealed (observed : List String)
    {changed : AList fun _ : String => Bool} (hm : Marks changed date) :
    (s.rowsObserved observed changed).dayState date ≠ .sealed := by
  intro hs
  obtain ⟨d, r, hd, hr, -, -⟩ := dayState_sealed hs
  rw [rowsObserved_lookup, if_pos hm] at hd
  obtain rfl := Option.some.inj hd
  cases hr

theorem not_owned_refused (h : s.active.lookup w.task ≠ some w) (code version : String) (now : Now) :
    s.finish w code version now = (s, some .conflict) ∧ s.release w = (s, some .conflict) := by
  have howns : s.owns w = false := by simp [State.owns, h]
  simp [State.finish, State.release, howns]

/-- **No seal is stale or unverified.** In every run, a sealed date was organized
at its current revision since it last changed, then reserved for verification,
then finished with the version it shows; rows that change a date unseal it at
once; and a work that is over can neither be finished nor released again. -/
theorem sealed_verified (settings : Settings) (actions : List Action) :
    (∀ date, (run (start settings) [] actions).1.dayState date = .sealed →
      ∃ d r, (run (start settings) [] actions).1.days.lookup date = some d ∧ d.result = some r ∧
        Sealed date d.revision r.sealVersion (since date (run (start settings) [] actions).2)) ∧
    (∀ observed changed date, Marks changed date →
      ((run (start settings) [] actions).1.observeCommittedRows observed changed).2 = none →
      ((run (start settings) [] actions).1.observeCommittedRows observed changed).1.dayState date ≠
        .sealed) ∧
    ∀ w, Retired w (run (start settings) [] actions).2 → ∀ code version now,
      (run (start settings) [] actions).1.finish w code version now =
          ((run (start settings) [] actions).1, some .conflict) ∧
        (run (start settings) [] actions).1.release w =
          ((run (start settings) [] actions).1, some .conflict) := by
  have h := run_history (start_history settings) actions
  generalize run (start settings) [] actions = final at h ⊢
  refine ⟨?_, ?_, ?_⟩
  · intro date hs
    obtain ⟨d, r, hd, hr, hrev, hseal⟩ := dayState_sealed hs
    exact ⟨d, r, hd, hr, (h.day date d hd).published r hr hseal hrev⟩
  · intro observed changed date hm hok
    rw [observeCommittedRows_eq] at hok ⊢
    split at hok
    · rename_i ha
      rw [if_pos ha]
      exact rowsObserved_not_sealed observed hm
    · cases hok
  · intro w hw code version now
    exact not_owned_refused (h.retired w hw).2 code version now

/-- A run that collects two days, migrates, and organizes and verifies the first. -/
def sealingRun : List Action :=
  [.call (.observeCommittedRows ["2024-01-01", "2024-01-02"] ∅),
    .call (.beginRound 1 (some ⟨fun _ => "2024-01-05"⟩)),
    .call (.reserve .migration), .call (.finish ⟨1, .migration, "", 0⟩ "" "" ⟨1, rfl, rfl⟩),
    .call (.reserve .organization),
    .call (.finish ⟨2, .organization, "2024-01-01", 1⟩ "" "" ⟨1, rfl, rfl⟩),
    .call (.reserve .verification),
    .call (.finish ⟨3, .verification, "2024-01-01", 1⟩ "" "v1" ⟨1, rfl, rfl⟩)]

def allTasks : Settings := {migration := true, organization := true, verification := true}

/-- That run ends with the first day sealed, so the theorem has something to say of it. -/
theorem sealed_verified_sealingRun : (run (start allTasks) [] sealingRun).1.dayState "2024-01-01" = .sealed ∧
      ∃ d r, (run (start allTasks) [] sealingRun).1.days.lookup "2024-01-01" = some d ∧
        d.result = some r ∧ Sealed "2024-01-01" d.revision r.sealVersion
          (since "2024-01-01" (run (start allTasks) [] sealingRun).2) := by
  have hs : (run (start allTasks) [] sealingRun).1.dayState "2024-01-01" = .sealed := by decide
  exact ⟨hs, (sealed_verified allTasks sealingRun).1 "2024-01-01" hs⟩

end ControlTower.Pipeline
