import Mathlib.Logic.Function.Basic
import ControlTower.Tuning.Row

/-! An operator's hold on a channel, against decisions taken before it.

A tick reads the row, decides, and later puts a state or creates a command that
carries the revision it read. `BeginManualChannelStatus` moves the revision, so
that an older decision no longer fits. What this rests on is that a revision is
never seen twice; and it is, when the row is deleted and made anew, because a new
row counts from zero again.

`Channel` keeps, beside the row, what the argument has to remember: how often the
row was deleted, how often a hold was begun, and whether the last hold still
stands. `hold_refuses`: as long as no state is put that outlives the row it was computed
from, unless that had revision zero, every decision from before a hold is refused. -/
namespace ControlTower.Tuning
open Go Option Bool

/-- What a tick read, and when. -/
structure Read (R : Type) where
  row : Option (Row R)
  deletions : Nat
  begins : Nat

structure Channel (T R : Type) where
  row : Option (Row R)
  /-- How often the row was deleted. -/
  deletions : Nat
  /-- How often a hold was begun. -/
  begins : Nat
  /-- The last hold still stands. -/
  holding : Bool
  read : T → Option (Read R)

inductive Deed (T R : Type) where
  | tick (t : T)
  /-- `PutContinuousState` of a state computed from what tick `t` read. -/
  | put (t : T) (v : ContinuousState R)
  /-- The creation of a command or a probe for a recommendation of tick `t`;
  `otherChecks` are the ones besides the manual control, `status` is the one it proposes,
  and `mark` enters the command into the other columns. -/
  | create (t : T) (prioritySync otherChecks : Bool) (status : Option Int) (mark : R → R)
  | beginManual (model : String) (rest : R) (now : Time)
  | finishManual (revision : Nat) (target : Int) (succeeded : Bool) (now : Time)
  | finishSchedule (target : Int) (written : Bool) (now : Time)
  | reconcile (previouslyDisabled manualPending : Bool) (rest : R) (capturedAt : Time)
  | modelChanged (model : Option String)
  /-- The channel is no longer present. -/
  | channelGone

/-- What a deed was answered. -/
inductive Answer where
  | done
  | refused (e : StoreErr)
  /-- The engine does not come to it: it read nothing, or a channel on hold. -/
  | notTried
deriving DecidableEq

section Deeds
variable {T R : Type} [DecidableEq T] (s : Channel T R)

def Channel.deleted (row : Option (Row R)) : Channel T R :=
  if s.row.isSome && row.isNone then
    {s with row := row, deletions := s.deletions + 1, holding := false}
  else {s with row := row}

/-- A created command in the row, if the row still has the revision. -/
def Row.commanded (r : Row R) (revision : Nat) (status : Option Int) (mark : R → R) : Row R :=
  if r.controlRevision = revision then
    {r with circuitStatusTarget := status.getD r.circuitStatusTarget, rest := mark r.rest}
  else r

def Channel.act : Deed T R → Channel T R × Answer
  | .tick t => ({s with read := Function.update s.read t (some ⟨s.row, s.deletions, s.begins⟩)}, .done)
  | .put t v => match s.read t with
    | none => (s, .notTried)
    | some snap =>
      -- All three writers return at once for a channel that is manually disabled.
      if heldBy snap.row then (s, .notTried) else
      match putContinuousState s.row {v with controlRevision := revisionOf snap.row} with
      | .error e => (s, .refused e)
      | .ok row => ({s with row := some row}, .done)
  | .create t prioritySync otherChecks status mark => match s.read t with
    | none => (s, .notTried)
    | some snap =>
      match checkManualChannelControl s.row prioritySync (revisionOf snap.row) with
      | .error e => (s, .refused e)
      | .ok _ =>
        if otherChecks then
          ({s with row := s.row.map (·.commanded (revisionOf snap.row) status mark)}, .done)
        else (s, .refused .decisionSuperseded)
  | .beginManual model rest now =>
    ({s with row := some (beginManual s.row model rest now), begins := s.begins + 1, holding := true},
      .done)
  | .finishManual revision target succeeded now =>
    match finishManual s.row revision target succeeded now with
    | .error e => (s, .refused e)
    | .ok row => ({s with row := some row, holding := s.holding && !(succeeded && target == 1)}, .done)
  | .finishSchedule target written now =>
    ({s with row := finishSchedule s.row target written now
             holding := s.holding && !(written && target == 1)}, .done)
  | .reconcile previouslyDisabled manualPending rest capturedAt =>
    ({s with row := reconcile s.row previouslyDisabled manualPending rest capturedAt
             holding := s.holding && !(s.row.any
               (·.released previouslyDisabled manualPending capturedAt))}, .done)
  | .modelChanged model => (s.deleted (deleteForModel s.row model), .done)
  | .channelGone => (s.deleted none, .done)

/-- A channel nobody has read yet. -/
def Channel.fresh (row : Option (Row R)) : Channel T R := ⟨row, 0, 0, false, fun _ => none⟩

/-- The row that tick `t` read has not been deleted since, or it read revision zero. -/
def Channel.Lasting (t : T) : Prop :=
  ∀ snap, s.read t = some snap → snap.deletions = s.deletions ∨ revisionOf snap.row = 0

/-- The condition on a deed: no state is put that outlives the row it was computed from. -/
def Channel.Admits : Deed T R → Prop
  | .put t _ => s.Lasting t
  | _ => True

/-- The channels that deeds under the condition lead to. -/
inductive Reached (row : Option (Row R)) : Channel T R → Prop
  | fresh : Reached row (Channel.fresh row)
  | act {s : Channel T R} (d : Deed T R) : Reached row s → s.Admits d → Reached row (s.act d).1

end Deeds

/-! ### What each statement does to the revision and the hold -/

section Invariant
variable {T R : Type} {row : Option (Row R)}

theorem put_revision {v : ContinuousState R} {r : Row R} (h : putContinuousState row v = .ok r) :
    revisionOf row = v.controlRevision ∧ r.controlRevision = revisionOf row := by
  unfold putContinuousState at h
  split at h
  · cases h
  · rename_i hrev
    cases h
    exact ⟨Decidable.not_not.mp hrev, rfl⟩

/-- A command changes neither the revision nor the hold. -/
theorem commanded_spec (row : Option (Row R)) (revision : Nat) (status : Option Int) (mark : R → R) :
    revisionOf (row.map (·.commanded revision status mark)) = revisionOf row ∧
      heldBy (row.map (·.commanded revision status mark)) = heldBy row := by
  cases row with
  | none => exact ⟨rfl, rfl⟩
  | some r =>
    simp only [map_some, Row.commanded]
    split <;> exact ⟨rfl, rfl⟩

theorem beginManual_revision (row : Option (Row R)) (model : String) (rest : R) (now : Time) :
    (beginManual row model rest now).controlRevision = revisionOf row + 1 := by
  cases row <;> rfl

theorem finishManual_spec {revision : Nat} {target : Int} {succeeded : Bool}
    {now : Time} {r : Row R} (h : finishManual row revision target succeeded now = .ok r) :
    revisionOf row ≤ r.controlRevision ∧
      ((succeeded && target == 1) = false → r.controlRevision = revisionOf row ∧
        heldBy (some r) = heldBy row) := by
  unfold finishManual at h
  cases row with
  | none => cases h
  | some r₀ =>
    simp only at h
    split at h
    · cases h
    split at h
    · cases h
      exact ⟨Nat.le_refl _, fun _ => ⟨rfl, rfl⟩⟩
    rename_i hsucc
    split at h
    · rename_i htarget
      cases h
      refine ⟨Nat.le_succ _, fun hopen => ?_⟩
      simp [htarget] at hopen
      simp [hopen] at hsucc
    · cases h
      exact ⟨Nat.le_refl _, fun _ => ⟨rfl, rfl⟩⟩

theorem finishSchedule_spec (row : Option (Row R)) (target : Int) (written : Bool) (now : Time) :
    revisionOf row ≤ revisionOf (finishSchedule row target written now) ∧
      ((written && target == 1) = false →
        heldBy (finishSchedule row target written now) = heldBy row) := by
  unfold finishSchedule
  cases written with
  | false => simp
  | true =>
    cases row with
    | none => simp [revisionOf, heldBy]
    | some r =>
      refine ⟨Nat.le_succ _, fun hopen => ?_⟩
      have htarget : target ≠ 1 := by simpa using hopen
      simp [heldBy, htarget]

theorem reconcile_spec (row : Option (Row R)) (previouslyDisabled manualPending : Bool) (rest : R)
    (capturedAt : Time) :
    revisionOf row ≤ revisionOf (reconcile row previouslyDisabled manualPending rest capturedAt) ∧
      ((row.any (·.released previouslyDisabled manualPending capturedAt)) = false →
        reconcile row previouslyDisabled manualPending rest capturedAt = row) := by
  unfold reconcile
  cases row with
  | none => simp
  | some r =>
    simp only [map_some, any_some]
    split
    · rename_i hr
      exact ⟨Nat.le_succ _, fun hno => by rw [hr] at hno; cases hno⟩
    · exact ⟨Nat.le_refl _, fun _ => rfl⟩

theorem deleteForModel_cases (row : Option (Row R)) (model : Option String) :
    deleteForModel row model = row ∨ deleteForModel row model = none := by
  unfold deleteForModel
  cases row with
  | none => exact .inl rfl
  | some r =>
    rw [filter_some]
    split
    · exact .inl rfl
    · exact .inr rfl

/-! ### The invariant -/

structure HoldInv (s : Channel T R) : Prop where
  /-- Within one life of the row the revision only grows. -/
  reads : ∀ t snap, s.read t = some snap → snap.deletions ≤ s.deletions ∧ snap.begins ≤ s.begins ∧
    (snap.deletions = s.deletions → revisionOf snap.row ≤ revisionOf s.row)
  held : s.holding = true → heldBy s.row = true ∧ 0 < revisionOf s.row
  before : s.holding = true → ∀ t snap, s.read t = some snap → snap.begins < s.begins →
    snap.deletions = s.deletions → revisionOf snap.row < revisionOf s.row
  /-- Who read since the hold began read the hold. -/
  after : s.holding = true → ∀ t snap, s.read t = some snap → snap.begins = s.begins →
    heldBy snap.row = true

theorem fresh_inv (row : Option (Row R)) : HoldInv (Channel.fresh row : Channel T R) := by
  refine ⟨?_, ?_, ?_, ?_⟩
  · intro t snap h
    cases h
  · intro h
    cases h
  · intro h
    cases h
  · intro h
    cases h

variable {s : Channel T R}

/-- The row moves on without a deletion: its revision does not fall, and while the
hold stands the row keeps it. -/
theorem HoldInv.advance (h : HoldInv s) {holding : Bool} (hrev : revisionOf s.row ≤ revisionOf row)
    (hhold : holding = true → s.holding = true ∧ heldBy row = heldBy s.row) :
    HoldInv {s with row := row, holding := holding} := by
  refine ⟨?_, ?_, ?_, ?_⟩
  · intro t snap hs
    obtain ⟨h₁, h₂, h₃⟩ := h.reads t snap hs
    exact ⟨h₁, h₂, fun hd => Nat.le_trans (h₃ hd) hrev⟩
  · intro hh
    obtain ⟨hold, hsame⟩ := hhold hh
    obtain ⟨h₁, h₂⟩ := h.held hold
    exact ⟨hsame.trans h₁, Nat.lt_of_lt_of_le h₂ hrev⟩
  · intro hh t snap hs hb hd
    exact Nat.lt_of_lt_of_le (h.before (hhold hh).1 t snap hs hb hd) hrev
  · intro hh t snap hs hb
    exact h.after (hhold hh).1 t snap hs hb

theorem HoldInv.deleted (h : HoldInv s) (hrow : row = s.row ∨ row = none) : HoldInv (s.deleted row) := by
  unfold Channel.deleted
  split
  · refine ⟨?_, ?_, ?_, ?_⟩
    · intro t snap hs
      obtain ⟨h₁, h₂, -⟩ := h.reads t snap hs
      refine ⟨Nat.le_succ_of_le h₁, h₂, fun hd => ?_⟩
      simp only at hd
      omega
    · intro hh
      cases hh
    · intro hh
      cases hh
    · intro hh
      cases hh
  · rename_i hkept
    have hsame : row = s.row := by
      rcases hrow with he | he
      · exact he
      · subst he
        cases hr : s.row with
        | none => rfl
        | some r => simp [hr] at hkept
    rw [hsame]
    exact h

/-- A decision from before the hold carries another revision. -/
theorem HoldInv.superseded (h : HoldInv s) (hold : s.holding = true) {t : T}
    {snap : Read R} (hr : s.read t = some snap) (hb : snap.begins < s.begins) (hl : s.Lasting t) :
    revisionOf s.row ≠ revisionOf snap.row := by
  rcases hl snap hr with hd | hzero
  · exact Nat.ne_of_gt (h.before hold t snap hr hb hd)
  · rw [hzero]
    exact Nat.ne_of_gt (h.held hold).2

variable [DecidableEq T]

/-- While a hold stands no put under the condition is done. -/
theorem HoldInv.put_not_done (h : HoldInv s) (hold : s.holding = true) {t : T}
    (hl : s.Lasting t) (v : ContinuousState R) :
    (s.act (.put t v)).1 = s ∧ (s.act (.put t v)).2 ≠ .done := by
  simp only [Channel.act]
  cases hr : s.read t with
  | none => exact ⟨rfl, by simp⟩
  | some snap =>
    simp only
    split
    · exact ⟨rfl, by simp⟩
    · rename_i hnot
      obtain ⟨-, hle, -⟩ := h.reads t snap hr
      have hb : snap.begins < s.begins := by
        rcases Nat.lt_or_eq_of_le hle with hlt | heq
        · exact hlt
        · exact absurd (h.after hold t snap hr heq) hnot
      have hne := h.superseded hold hr hb hl
      have hput : putContinuousState s.row {v with controlRevision := revisionOf snap.row} =
          .error .decisionSuperseded := if_pos hne
      rw [hput]
      exact ⟨rfl, by simp⟩

theorem act_inv (h : HoldInv s) {d : Deed T R} (ha : s.Admits d) : HoldInv (s.act d).1 := by
  cases d with
  | tick t =>
    -- The tick reads the row as it is, with a hold that stands.
    have hcases : ∀ t' snap, (s.act (.tick t)).1.read t' = some snap →
        snap = ⟨s.row, s.deletions, s.begins⟩ ∨ s.read t' = some snap := by
      intro t' snap hs
      by_cases he : t' = t
      · subst he
        simp only [Channel.act, Function.update_self, Option.some.injEq] at hs
        exact .inl hs.symm
      · exact .inr (by simpa [Channel.act, he] using hs)
    refine ⟨?_, h.held, ?_, ?_⟩
    · intro t' snap hs
      rcases hcases t' snap hs with rfl | hs
      · exact ⟨Nat.le_refl _, Nat.le_refl _, fun _ => Nat.le_refl _⟩
      · exact h.reads t' snap hs
    · intro hh t' snap hs hb
      rcases hcases t' snap hs with rfl | hs
      · exact absurd hb (Nat.lt_irrefl _)
      · exact h.before hh t' snap hs hb
    · intro hh t' snap hs hb
      rcases hcases t' snap hs with rfl | hs
      · exact (h.held hh).1
      · exact h.after hh t' snap hs hb
  | put t v =>
    cases hold : s.holding with
    | true =>
      rw [(h.put_not_done hold ha v).1]
      exact h
    | false =>
      simp only [Channel.act]
      split
      · exact h
      · split
        · exact h
        · split
          · exact h
          · rename_i row hput
            have hrev := (put_revision hput).2
            refine h.advance (Nat.le_of_eq hrev.symm) fun hh => ?_
            rw [hold] at hh
            cases hh
  | create t prioritySync otherChecks status mark =>
    simp only [Channel.act]
    split
    · exact h
    · split
      · exact h
      · split
        · obtain ⟨hrev, hkeep⟩ := commanded_spec s.row _ status mark
          exact h.advance (Nat.le_of_eq hrev.symm) fun hh => ⟨hh, hkeep⟩
        · exact h
  | beginManual model rest now =>
    have hrev := beginManual_revision s.row model rest now
    have hrow : revisionOf (some (beginManual s.row model rest now)) = revisionOf s.row + 1 := hrev
    refine ⟨?_, ?_, ?_, ?_⟩
    · intro t snap hs
      obtain ⟨h₁, h₂, h₃⟩ := h.reads t snap hs
      refine ⟨h₁, Nat.le_succ_of_le h₂, fun hd => ?_⟩
      show revisionOf snap.row ≤ revisionOf (some (beginManual s.row model rest now))
      rw [hrow]
      exact Nat.le_succ_of_le (h₃ hd)
    · intro _
      refine ⟨rfl, ?_⟩
      show 0 < revisionOf (some (beginManual s.row model rest now))
      rw [hrow]
      exact Nat.succ_pos _
    · intro _ t snap hs _ hd
      show revisionOf snap.row < revisionOf (some (beginManual s.row model rest now))
      rw [hrow]
      exact Nat.lt_succ_of_le ((h.reads t snap hs).2.2 hd)
    · intro _ t snap hs hb
      have hle := (h.reads t snap hs).2.1
      have hb' : snap.begins = s.begins + 1 := hb
      omega
  | finishManual revision target succeeded now =>
    simp only [Channel.act]
    split
    · exact h
    · rename_i row hfin
      obtain ⟨hrev, hkeep⟩ := finishManual_spec hfin
      refine h.advance hrev fun hh => ?_
      simp only [and_eq_true, not_eq_true'] at hh
      exact ⟨hh.1, (hkeep hh.2).2⟩
  | finishSchedule target written now =>
    obtain ⟨hrev, hkeep⟩ := finishSchedule_spec s.row target written now
    refine h.advance hrev fun hh => ?_
    simp only [and_eq_true, not_eq_true'] at hh
    exact ⟨hh.1, hkeep hh.2⟩
  | reconcile previouslyDisabled manualPending rest capturedAt =>
    obtain ⟨hrev, hkeep⟩ := reconcile_spec s.row previouslyDisabled manualPending rest capturedAt
    refine h.advance hrev fun hh => ?_
    simp only [and_eq_true, not_eq_true'] at hh
    exact ⟨hh.1, by rw [hkeep hh.2]⟩
  | modelChanged model => exact h.deleted (deleteForModel_cases s.row model)
  | channelGone => exact h.deleted (.inr rfl)

theorem reached_inv (h : Reached row s) : HoldInv s := by
  induction h with
  | fresh => exact fresh_inv row
  | act d _ ha ih => exact act_inv ih ha

/-- **A hold stands against every decision that was read**, before it or since, in
every run in which no state is put that outlives the row it was computed from, unless that
had revision zero: a put under this condition, and any command or probe, is not done and
changes nothing. -/
theorem hold_refuses {row : Option (Row R)} {s : Channel T R} (h : Reached row s)
    (hold : s.holding = true) {t : T} {snap : Read R} (hr : s.read t = some snap) :
    heldBy s.row = true ∧
      (s.Lasting t → ∀ v, (s.act (.put t v)).1 = s ∧ (s.act (.put t v)).2 ≠ .done) ∧
      ∀ prioritySync otherChecks status mark,
        s.act (.create t prioritySync otherChecks status mark) = (s, .refused .decisionSuperseded) := by
  have hinv := reached_inv h
  obtain ⟨hheld, -⟩ := hinv.held hold
  refine ⟨hheld, hinv.put_not_done hold, fun prioritySync otherChecks status mark => ?_⟩
  cases hrow : s.row with
  | none => rw [hrow] at hheld; cases hheld
  | some r =>
    have hpaused : r.pausedReason = .manualDisabled := by simpa [hrow, heldBy] using hheld
    simp [Channel.act, hr, hrow, checkManualChannelControl, hpaused]

end Invariant

/-! ### A revision seen twice -/

def runDeeds {T R : Type} [DecidableEq T] (row : Option (Row R)) (deeds : List (Deed T R)) : Channel T R :=
  deeds.foldl (fun s d => (s.act d).1) (Channel.fresh row)

def normalState : ContinuousState Unit :=
  ⟨"a", 0, .clear, false, 0, none, 1, none, 0, 0, 0, 0, ()⟩

/-- Tick 1 reads a row that nobody deletes before the hold begins. -/
def heldDeeds : List (Deed Nat Unit) :=
  [.tick 0, .put 0 normalState, .tick 1, .beginManual "a" () 3]

/-- There the hold refuses the tick. -/
theorem hold_refuses_heldDeeds : (runDeeds none heldDeeds).holding = true ∧
      ((runDeeds none heldDeeds).act (.put 1 normalState)).2 ≠ .done ∧
      (runDeeds none heldDeeds).act (.create 1 false true (some 2) id) =
        (runDeeds none heldDeeds, .refused .decisionSuperseded) := by
  have hlasting : ∀ (s : Channel Nat Unit) (t : Nat) (snap : Read Unit), s.read t = some snap →
      snap.deletions = s.deletions → s.Lasting t := by
    intro s t snap hs hd snap' hs'
    rw [hs] at hs'
    obtain rfl := Option.some.inj hs'
    exact .inl hd
  have hreached : Reached none (runDeeds none heldDeeds) :=
    .act _ (.act _ (.act _ (.act _ .fresh trivial) (hlasting _ 0 _ rfl rfl)) trivial) trivial
  obtain ⟨-, hput, hcreate⟩ := hold_refuses hreached rfl (t := 1) rfl
  exact ⟨rfl, (hput (hlasting _ 1 _ rfl rfl) normalState).2, hcreate false true (some 2) id⟩

/-- The row reaches revision 1, tick 1 reads it, a change of model deletes it, and
the hold begins on a new row, whose revision is 1 again. -/
def staleDeeds : List (Deed Nat Unit) :=
  [.tick 0, .put 0 normalState, .finishSchedule 2 true 2, .tick 1, .modelChanged (some "b"),
    .beginManual "b" () 3]

/-- The tick from before the hold puts its state, the hold is gone, and a command
of the same tick can be created. -/
theorem hold_undone :
    (runDeeds none staleDeeds).holding = true ∧ heldBy (runDeeds none staleDeeds).row = true ∧
      (∃ snap, (runDeeds none staleDeeds).read 1 = some snap ∧
        snap.begins < (runDeeds none staleDeeds).begins) ∧
      ((runDeeds none staleDeeds).act (.put 1 normalState)).2 = .done ∧
      heldBy ((runDeeds none staleDeeds).act (.put 1 normalState)).1.row = false ∧
      (((runDeeds none staleDeeds).act (.put 1 normalState)).1.act (.create 1 false true (some 2) id)).2 = .done :=
  ⟨rfl, rfl, ⟨_, rfl, by decide⟩, rfl, rfl, rfl⟩

end ControlTower.Tuning
