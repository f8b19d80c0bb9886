import ControlTower.Fence

/-! The tuning engine's channel jobs.

Three kinds of job write a channel's state row. A site evaluation loads the
engine's version, lists all states, and only then queues one job a channel, each
of which works on its row of that list. A fast circuit and a routine probe that
trips read the latest row under the guard. All of them take the channel's guard,
and whoever goes on to write leaves the engine's next version in it.

`move` follows the code from one of these moments to the next; a put that fails
changes nothing. Every move is one or two actions of the version fence
(`move_fence`), so an evaluation that gets to write started from a list that
already held what the earlier jobs of its channel wrote. -/
namespace ControlTower.Tuning
open Fence List

structure ChannelKey where
  site : String
  channel : Int
deriving DecidableEq

inductive Kind (I : Type) where
  /-- A job of the site evaluation `i`. -/
  | site (i : I)
  | fastCircuit
  | routineEvidence

/-- The evaluation whose list of states a job starts from. -/
def Kind.evaluation {I : Type} : Kind I → Option I
  | .site i => some i
  | .fastCircuit | .routineEvidence => none

/-- The engine's version is `counter`; a row's log holds what was committed to it,
`none` for a row that was deleted. -/
abbrev Engine (J I Row : Type) := State ChannelKey J I (Option Row)

inductive Move (J I Row : Type) where
  /-- `snapshotVersion := e.version.Load()` -/
  | loadVersion (i : I)
  /-- `ListContinuousStates` of an evaluation. -/
  | listStates (i : I)
  | lock (j : J)
  /-- Any return before a write is due: the fence, a cancelled context, a failed
  read, a state that is not eligible. -/
  | leave (j : J)
  /-- Past the checks, with the version's bump deferred. -/
  | proceed (j : J)
  | put (j : J) (row : Row)
  | putFailed (j : J)
  /-- `guard.version = e.version.Add(1)` -/
  | bump (j : J)
  | unlock (j : J)
  /-- Another writer of the row: a result, an operator, a synchronisation. -/
  | elsewhere (k : ChannelKey) (row : Option Row)

section Jobs
variable {J I Row : Type} [DecidableEq J] [DecidableEq I]
variable (key : J → ChannelKey) (kind : J → Kind I)

/-- The job returns and its deferred unlock runs. -/
def unlocked (s : Engine J I Row) (j : J) (stamp : Option Nat) : Engine J I Row :=
  (s.setPhase j (.released stamp)).setGuard (key j) ⟨none, (s.guard (key j)).version⟩

def move (s : Engine J I Row) : Move J I Row → Option (Engine J I Row)
  | .loadVersion i => match s.session i with
    | .fresh => some (s.setSession i (.loaded s.counter))
    | _ => none
  | .listStates i => match s.session i with
    | .loaded n => some (s.setSession i (.read n s.log))
    | _ => none
  | .lock j => match s.phase j, (s.guard (key j)).holder with
    | .waiting, none =>
      some ((s.setPhase j .locked).setGuard (key j) ⟨some j, (s.guard (key j)).version⟩)
    | _, _ => none
  | .leave j => match s.phase j with
    | .locked => some (unlocked key s j none)
    | _ => none
  | .proceed j => match s.phase j, kind j with
    | .locked, .site i => match s.session i with
      | .read snapshotVersion _ =>
        if snapshotVersion < (s.guard (key j)).version then none else some (s.setPhase j .running)
      | _ => none
    | .locked, .fastCircuit => some (s.setPhase j .running)
    | _, _ => none
  | .put j row => match s.phase j, kind j with
    | .running, _ => some (s.append (key j) (some j, some row))
    -- Routine evidence has no bump deferred: its first write decides.
    | .locked, .routineEvidence => some ((s.setPhase j .running).append (key j) (some j, some row))
    | _, _ => none
  | .putFailed j => match s.phase j, kind j with
    | .running, _ => some s
    | .locked, .routineEvidence => some (unlocked key s j none)
    | _, _ => none
  | .bump j => match s.phase j with
    | .running => some {(s.setPhase j (.stamped (s.counter + 1))).setGuard (key j)
        ⟨(s.guard (key j)).holder, s.counter + 1⟩ with counter := s.counter + 1}
    | _ => none
  | .unlock j => match s.phase j with
    | .stamped v => some (unlocked key s j (some v))
    | _ => none
  | .elsewhere k row => some (s.append k (none, row))

/-- The states of an engine process over any interleaving of its jobs. -/
inductive Run : Engine J I Row → Prop
  | start : Run State.initial
  | move {s s' : Engine J I Row} (m : Move J I Row) : Run s → move key kind s m = some s' → Run s'

/-- Every move is one of the fence's, or none, or two. -/
theorem move_fence {s s' : Engine J I Row} {m : Move J I Row}
    (h : Reachable key (fun j => (kind j).evaluation) s) (hm : move key kind s m = some s') :
    Reachable key (fun j => (kind j).evaluation) s' := by
  cases m with
  | loadVersion i =>
    simp only [move] at hm
    split at hm
    · rename_i hi
      exact h.step (.load i) (by simp only [Fence.step, hi]; exact hm)
    · cases hm
  | listStates i =>
    simp only [move] at hm
    split at hm
    · rename_i n hi
      exact h.step (.read i) (by simp only [Fence.step, hi]; exact hm)
    · cases hm
  | lock j => exact h.step (.acquire j) hm
  | leave j => exact h.step (.quit j) hm
  | proceed j =>
    refine h.step (.start j) ?_
    simp only [move] at hm
    split at hm
    · rename_i i hl hk
      split at hm
      · rename_i n snap hi
        split at hm
        · cases hm
        · rename_i hfence
          cases hm
          simp [Fence.step, hl, State.passes, Kind.evaluation, hk, hi, Nat.not_lt.mp hfence]
      · cases hm
    · rename_i hl hk
      cases hm
      simp [Fence.step, hl, State.passes, Kind.evaluation, hk]
    · cases hm
  | put j row =>
    simp only [move] at hm
    split at hm
    · rename_i hr
      exact h.step (.write j (some row)) (by simp only [Fence.step, hr]; exact hm)
    · rename_i hl hk
      have hstart : Fence.step key (fun j => (kind j).evaluation) s (.start j) =
          some (s.setPhase j .running) := by
        simp [Fence.step, hl, State.passes, Kind.evaluation, hk]
      refine (h.step (.start j) hstart).step (.write j (some row)) ?_
      simp only [Fence.step, State.setPhase, Function.update_self] at hm ⊢
      exact hm
    · cases hm
  | putFailed j =>
    simp only [move] at hm
    split at hm
    · cases hm
      exact h
    · rename_i hl hk
      exact h.step (.quit j) (by simp only [Fence.step, hl]; exact hm)
    · cases hm
  | bump j => exact h.step (.stamp j) hm
  | unlock j => exact h.step (.release j) hm
  | elsewhere k row => exact h.step (.other k row) hm

theorem run_fence {s : Engine J I Row} (h : Run key kind s) :
    Reachable key (fun j => (kind j).evaluation) s := by
  induction h with
  | start => exact .initial
  | move m _ hm ih => exact move_fence key kind ih hm

theorem run_moves {s s' : Engine J I Row} (h : Run key kind s) (moves : List (Move J I Row))
    (hm : moves.foldlM (move key kind) s = some s') : Run key kind s' := by
  induction moves generalizing s with
  | nil =>
    simp only [foldlM_nil, Option.pure_def, Option.some.injEq] at hm
    exact hm ▸ h
  | cons m rest ih =>
    simp only [foldlM_cons, Option.bind_eq_bind, Option.bind_eq_some_iff] at hm
    obtain ⟨s₁, h₁, hrest⟩ := hm
    exact ih (h.move m h₁) hrest

/-- What a job committed to a row. -/
def writesOf (j : J) (log : List (Option J × Option Row)) : List (Option J × Option Row) :=
  log.filter fun e => e.1 = some j

/-- Writes of others are all in the part of a log after which only one job wrote. -/
theorem writesOf_since {snapshot log : List (Option J × Option Row)} {j j' : J} (hne : j' ≠ j)
    (h : Since snapshot log fun a => a = none ∨ a = some j) : writesOf j' log = writesOf j' snapshot := by
  obtain ⟨suffix, rfl, hs⟩ := h
  have hnone : writesOf j' suffix = [] := by
    rw [writesOf, filter_eq_nil_iff]
    intro e he heq
    have hj' : e.1 = some j' := by simpa using heq
    rcases hs e he with ha | ha
    · rw [ha] at hj'
      cases hj'
    · rw [ha] at hj'
      exact hne (Option.some.inj hj').symm
  rw [writesOf, filter_append, ← writesOf, ← writesOf, hnone, append_nil]

/-- **No evaluation overwrites a transition it has not seen.** When a job of a
site evaluation writes its channel's row, the list of states it started from
already held every write of every job that had let go of the channel's guard. -/
theorem evaluation_not_stale {s s' : Engine J I Row} (h : Run key kind s) {j : J} {i : I} {row : Row}
    (hk : kind j = .site i) (hw : move key kind s (.put j row) = some s') :
    ∃ snapshotVersion listed, s.session i = .read snapshotVersion listed ∧
      listed (key j) <+: s.log (key j) ∧
      ∀ j' stamp, key j' = key j → s.phase j' = .released stamp →
        writesOf j' (listed (key j)) = writesOf j' (s.log (key j)) := by
  have hr : s.phase j = .running := by
    simp only [move, hk] at hw
    split at hw
    · assumption
    · rename_i hroutine
      cases hroutine
    · cases hw
  obtain ⟨n, listed, hs, hsince⟩ := fenced_sees (run_fence key kind h) (i := i)
    (by rw [hk]; rfl) hr
  refine ⟨n, listed, hs, ?_, ?_⟩
  · obtain ⟨suffix, hlog, -⟩ := hsince
    exact ⟨suffix, hlog.symm⟩
  · intro j' stamp _ hreleased
    have hne : j' ≠ j := by
      rintro rfl
      rw [hr] at hreleased
      cases hreleased
    exact (writesOf_since hne hsince).symm

end Jobs

def oneChannel (_ : Nat) : ChannelKey := ⟨"site", 1⟩

def circuitThenSite (j : Nat) : Kind Unit := if j = 0 then .fastCircuit else .site ()

/-- A fast circuit (job 0) comes and goes; then an evaluation of its channel (job 1)
lists the states and gets as far as writing. -/
def circuitThenEvaluation : List (Move Nat Unit Nat) :=
  [.lock 0, .proceed 0, .put 0 7, .bump 0, .unlock 0, .loadVersion (), .listStates (), .lock 1,
    .proceed 1]

/-- In that run the evaluation writes, and its list held the circuit's row. -/
theorem evaluation_not_stale_circuit :
    ∃ s s' : Engine Nat Unit Nat,
      circuitThenEvaluation.foldlM (move oneChannel circuitThenSite) State.initial = some s ∧
      move oneChannel circuitThenSite s (.put 1 8) = some s' ∧
      ∃ snapshotVersion listed, s.session () = .read snapshotVersion listed ∧
        writesOf 0 (listed (oneChannel 1)) = [(some 0, some 7)] := by
  obtain ⟨s, hs⟩ : ∃ s, circuitThenEvaluation.foldlM (move oneChannel circuitThenSite)
      (State.initial : Engine Nat Unit Nat) = some s := ⟨_, rfl⟩
  have hrun : Run oneChannel circuitThenSite s := run_moves _ _ .start circuitThenEvaluation hs
  cases hs
  obtain ⟨n, listed, hread, -, hall⟩ := evaluation_not_stale oneChannel circuitThenSite hrun
    (show circuitThenSite 1 = .site () from rfl)
    (show move oneChannel circuitThenSite _ (.put 1 8) = some _ from rfl)
  exact ⟨_, _, rfl, rfl, n, listed, hread, (hall 0 (some 1) rfl rfl).trans rfl⟩

end ControlTower.Tuning
