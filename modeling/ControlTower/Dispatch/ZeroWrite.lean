import ControlTower.Dispatch.World

/-! The zero write of an opened circuit.

In auto mode a circuit says that the channel carries no weight. A job that opens one
persists it before it creates the command, and corrects the state afterwards if there
is none. What a circuit then rests on is read off the row and the commands created:
the command that it waits for, or the zero that was confirmed when it opened. -/
namespace ControlTower.Dispatch
open Go Tuning Data

/-! ### The commands of a run -/

/-- The store, and the commands created so far, the last one first. -/
structure Books where
  row : Store
  made : List (String × Change)

namespace Books

variable (b : Books)

def apply (e : StoreEvent) : Books := {b with row := e.apply b.row}

/-- A command that was created is entered. -/
def entered (made : List (String × Change)) : (q : Request) → Answer q → List (String × Change)
  | .change c, .made id _ _ => (id, c) :: made
  | .change _, .refused _ => made
  | .put _, _ | .probe, _ | .result _, _ | .status _, _ | .completedProbeCount, _ => made

def serve (q : Request) (answer : Answer q) : Answer q × Books :=
  ((Dispatch.serve b.row q answer).1,
    ⟨(Dispatch.serve b.row q answer).2, entered b.made q (Dispatch.serve b.row q answer).1⟩)

def runJob (job : Job Unit) (turns : List Turn) : Books := job.run apply serve b turns

def step : Event → Books
  | .evaluate t turns => b.runJob (t.evaluate b.row.isSome (readState b.row)) turns
  | .fastCircuit t turns => b.runJob (t.evaluate (readState b.row)) turns
  | .routineEvidence t turns => b.runJob (t.evaluate (readState b.row)) turns
  | .store e => b.apply e

/-- The books of a channel that starts without a row. -/
def run (events : List Event) : Books := events.foldl step ⟨none, []⟩

theorem run_forget (job : Job Unit) (turns : List Turn) :
    (b.runJob job turns).row = Dispatch.runJob job b.row turns ∧
      job.asked apply serve b turns = job.asked StoreEvent.apply Dispatch.serve b.row turns :=
  Dialogue.run_forget Books.row (fun _ _ => rfl) (fun _ _ _ => ⟨rfl, rfl⟩) job b turns

theorem step_row (event : Event) : (b.step event).row = Dispatch.step b.row event := by
  cases event with
  | evaluate t turns => exact (b.run_forget _ turns).1
  | fastCircuit t turns => exact (b.run_forget _ turns).1
  | routineEvidence t turns => exact (b.run_forget _ turns).1
  | store e => rfl

end Books

/-- The id of the last command, recoveries apart, if it is the zero of an opening. -/
def lastOpening : List (String × Change) → Option String
  | [] => none
  | (id, c) :: older =>
    if c.rule = .circuitRecovered then lastOpening older
    else if c.rule = .circuitOpened ∧ c.proposedWeight = 0 then some id else none

/-- A stored circuit that does not disable its channel has the zero write of its
opening: the command that the row waits for, or the last write confirmed, at the
moment that counts as the opening. -/
def Books.ZeroWritten (b : Books) : Prop :=
  let s := readState b.row
  s.rest.phase = .circuit ∨ s.rest.phase = .probing → s.circuitDisabled = false →
    ∃ id, lastOpening b.made = some id ∧
      (id ≠ "" ∧ s.rest.capacity.pendingCommandID = id ∧ s.rest.capacity.pendingWeight = 0 ∨
        s.rest.lastWrittenWeight = some 0 ∧ s.lastWriteAt = s.rest.circuitOpenedAt)

/-! ### The runs -/

/-- A probe round reports; nobody else writes the row. -/
def StoreEvent.reports : StoreEvent → Bool
  | recordProbeResult _ _ _ _ _ _ => true
  | _ => false

def Calm (turns : List Turn) : Prop := ∀ turn ∈ turns, ∀ e ∈ turn.events, e.reports = true

/-- Auto-mode evaluations, fast circuits and the reports of probe rounds. -/
def Event.Automatic : Event → Prop
  | .evaluate t turns => t.mode = .auto ∧ Calm turns
  | .fastCircuit _ turns => Calm turns
  | .routineEvidence _ _ => False
  | .store e => e.reports = true

def Creates (turn : Turn) : Prop :=
  ∀ c, ∃ id clock queued, id ≠ "" ∧ turn.answer (.change c) = .made id clock queued

def Accepts (turn : Turn) : Prop := ∀ v, turn.answer (.put v) = none

/-- After a put that was accepted the job is served at least one more call; and
unless that one creates a command with an id, the put after it is accepted. -/
def Followed : List Turn → Prop
  | [] => True
  | turn :: rest =>
    ((∃ v, turn.answer (.put v) = none) → ∃ next after, rest = next :: after ∧
      (Creates next ∨ ∃ last ending, after = last :: ending ∧ Accepts last)) ∧ Followed rest

/-- The run of a job asks for the command of an opening. -/
def Opens (job : Job Unit) (row : Store) (turns : List Turn) : Prop :=
  ∃ c, .change c ∈ job.asked StoreEvent.apply serve row turns ∧ c.rule = .circuitOpened

/-- A job that opens the circuit is not cut off with the opening persisted alone.
A channel without weight is not evaluated while a status command is awaited. -/
def Event.Unbroken (row : Store) : Event → Prop
  | .evaluate t turns => (Opens (t.evaluate row.isSome (readState row)) row turns → Followed turns) ∧
      (0 < t.base.baseWeight ∨ (readState row).circuitStatusTarget = 0)
  | .fastCircuit t turns => Opens (t.evaluate (readState row)) row turns → Followed turns
  | .routineEvidence _ _ => True
  | .store _ => True

/-- Every step is automatic and, in the state before it, unbroken. -/
def Unbroken : Store → List Event → Prop
  | _, [] => True
  | row, event :: events => event.Automatic ∧ event.Unbroken row ∧ Unbroken (step row event) events

/-! ### What a circuit rests on -/

/-- What a state says of its circuit and of its writes. -/
structure Standing where
  phase : CircuitPhase
  openedAt : Option Time
  pending : String
  pendingWeight : Int
  written : Option Int
  writtenAt : Option Time
  disabled : Bool
  latched : Bool
  target : Int

def standing (s : State) : Standing :=
  ⟨s.rest.phase, s.rest.circuitOpenedAt, s.rest.capacity.pendingCommandID, s.rest.capacity.pendingWeight,
    s.rest.lastWrittenWeight, s.lastWriteAt, s.circuitDisabled, s.rest.routineCircuitLatched,
    s.circuitStatusTarget⟩

namespace Standing

def Open (s : Standing) : Prop := s.phase = .circuit ∨ s.phase = .probing

/-- The last write is the zero that opened the circuit. -/
def Confirmed (s : Standing) (made : List (String × Change)) : Prop :=
  s.written = some 0 ∧ s.writtenAt = s.openedAt ∧ ∃ id, lastOpening made = some id

/-- Unless the channel is disabled: an open circuit waits for its zero write or has
it, and a soft start that waits for its own write still has it. A status command is
awaited by an open circuit that waits for no write. -/
structure Held (s : Standing) (made : List (String × Change)) : Prop where
  confirmed : s.disabled = false → s.pending = "" → s.Open → s.Confirmed made
  pending : s.disabled = false → s.pending ≠ "" → s.Open →
    s.phase = .circuit ∧ s.pendingWeight = 0 ∧ lastOpening made = some s.pending
  softStart : s.disabled = false → s.pending ≠ "" → s.phase = .softStart → s.Confirmed made
  awaited : s.disabled = true ∨ s.target ≠ 0 → s.Open ∧ s.pending = ""
  enabling : s.disabled = false → s.target ≠ 0 → s.target = 1
  unlatched : s.latched = false

/-- Neither open nor starting softly, and nothing awaited. -/
structure Serves (s : Standing) : Prop where
  phase : s.phase = .normal ∨ s.phase = .blank
  disabled : s.disabled = false
  target : s.target = 0
  unlatched : s.latched = false

theorem Serves.held {s : Standing} (h : s.Serves) (made : List (String × Change)) : s.Held made := by
  have hclosed : ¬s.Open := by
    rintro (hphase | hphase) <;> rcases h.phase with h | h <;> simp [hphase] at h
  have hrest : ¬(s.disabled = true ∨ s.target ≠ 0) := by simp [h.disabled, h.target]
  refine ⟨fun _ _ hopen => absurd hopen hclosed, fun _ _ hopen => absurd hopen hclosed, fun _ _ hphase => ?_,
    fun h => absurd h hrest, fun _ htarget => absurd h.target htarget, h.unlatched⟩
  rcases h.phase with h | h <;> simp [hphase] at h

end Standing

def Held (s : State) (made : List (String × Change)) : Prop := (standing s).Held made

def Serves (s : State) : Prop := (standing s).Serves

def Books.Backed (b : Books) : Prop := Held (readState b.row) b.made

theorem Books.Backed.zeroWritten {b : Books} (h : b.Backed) : b.ZeroWritten := by
  intro hopen henabled
  by_cases hpending : (readState b.row).rest.capacity.pendingCommandID = ""
  · obtain ⟨hwritten, hat, id, hid⟩ := h.confirmed henabled hpending hopen
    exact ⟨id, hid, .inr ⟨hwritten, hat⟩⟩
  · obtain ⟨-, hzero, hid⟩ := h.pending henabled hpending hopen
    exact ⟨(readState b.row).rest.capacity.pendingCommandID, hid, .inl ⟨hpending, rfl, hzero⟩⟩

/-! ### What the helpers do to it -/

section Helpers
variable {t : Setting} {s s' : State} {made : List (String × Change)}

theorem Held.of_eq (h : Held s made) (heq : standing s' = standing s) : Held s' made := by
  unfold Held
  rw [heq]
  exact h

theorem Serves.of_eq (h : Serves s) (heq : standing s' = standing s) : Serves s' := by
  unfold Serves
  rw [heq]
  exact h

theorem Serves.held (h : Serves s) (made : List (String × Change)) : Held s made := Standing.Serves.held h made

/-- A closed circuit awaits nothing. -/
theorem Held.serves (h : Held s made) (hphase : s.rest.phase = .normal ∨ s.rest.phase = .blank) : Serves s := by
  have hclosed : ¬(standing s).Open := by
    rintro (hopen | hopen) <;> rcases hphase with hphase | hphase <;> cases hphase.symm.trans hopen
  have hnot := fun hawaited => hclosed (h.awaited hawaited).1
  refine ⟨hphase, ?_, ?_, h.unlatched⟩
  · exact Bool.eq_false_iff.mpr fun hdisabled => hnot (.inl hdisabled)
  · exact Decidable.byContradiction fun htarget => hnot (.inr htarget)

/-- The zero write was confirmed, and no other is awaited. -/
theorem Held.of_confirmed (hopen : (standing s).Open) (hpending : s.rest.capacity.pendingCommandID = "")
    (hconfirmed : s.circuitDisabled = false → (standing s).Confirmed made)
    (htarget : s.circuitDisabled = false → s.circuitStatusTarget ≠ 0 → s.circuitStatusTarget = 1)
    (hlatched : s.rest.routineCircuitLatched = false) : Held s made where
  confirmed henabled _ _ := hconfirmed henabled
  pending _ hne := absurd hpending hne
  softStart _ hne := absurd hpending hne
  awaited _ := ⟨hopen, hpending⟩
  enabling := htarget
  unlatched := hlatched

@[simp] theorem standing_noteWriteFailure (e : WriteErr) : standing (t.noteWriteFailure s e) = standing s := by
  cases e <;> rfl

theorem standing_tracked : standing (t.tracked s) = standing s := by
  unfold Setting.tracked trackWrites
  dsimp only
  split_ifs <;> rfl

theorem standing_capacityUpdated (t : Tick) : standing (t.capacityUpdated s) = standing s := by
  obtain ⟨c, limited, heq, hid, hweight, -⟩ := updateCapacity_eq t.params.capacity t.base s t.ratesAsOf t.now
    t.ratesAvailable t.params.capacityMaxDecreasePercent
  have hupdated : standing (updateCapacity t.params.capacity t.base s t.ratesAsOf t.now t.ratesAvailable
      t.params.capacityMaxDecreasePercent) = standing s := by
    rw [heq]
    simp [standing, hid, hweight]
  simp only [Tick.capacityUpdated]
  split
  · exact hupdated
  · exact hupdated

variable (h : Held s made)
include h

/-- A failed enable leads back to the circuit that it was to end. -/
theorem Held.resetFailedCircuitEnable
    (hawaited : s.circuitDisabled = true ∨ s.circuitStatusTarget ≠ 0) (silentMinutes : Int) :
    Held (t.resetFailedCircuitEnable silentMinutes s) made := by
  obtain ⟨hopen, hpending⟩ := h.awaited hawaited
  exact Held.of_confirmed (.inl rfl) hpending (fun henabled => h.confirmed henabled hpending hopen)
    (fun _ htarget => absurd rfl htarget) h.unlatched

/-- The end of a write that was awaited. -/
theorem Held.settled (hpending : s.rest.capacity.pendingCommandID ≠ "")
    (answer : Option (CommandStatus × Option Time)) : Held (t.settled s answer) made := by
  have hnot : ¬(s.circuitDisabled = true ∨ s.circuitStatusTarget ≠ 0) :=
    fun hawaited => hpending (h.awaited hawaited).2
  have henabled : s.circuitDisabled = false := Bool.eq_false_iff.mpr fun hdisabled => hnot (.inl hdisabled)
  have htarget : s.circuitStatusTarget = 0 := Decidable.byContradiction fun htarget => hnot (.inr htarget)
  have hunapplied : Held (t.resetUnappliedCapacityTransition (forgetWrite s)) made := by
    unfold Setting.resetUnappliedCapacityTransition
    split_ifs with hsoft hcircuit
    · refine Held.of_confirmed (.inl rfl) rfl (fun _ => ?_) (fun _ hne => absurd rfl hne) h.unlatched
      exact h.softStart henabled hpending hsoft
    · refine Serves.held ?_ made
      exact ⟨.inl rfl, henabled, htarget, h.unlatched⟩
    · refine ⟨fun _ _ hopen => ?_, fun _ hne => absurd rfl hne, fun _ hne => absurd rfl hne,
        fun hawaited => absurd hawaited hnot, fun _ hne => absurd htarget hne, h.unlatched⟩
      obtain ⟨hphase, hzero, -⟩ := h.pending henabled hpending hopen
      exact absurd ⟨hphase, hzero⟩ hcircuit
  have happlied (appliedAt : Time) : Held (noteWriteSuccess (confirmCapacityWrite t.params.silentMinutes s
      s.rest.capacity.pendingWeight appliedAt)) made := by
    refine ⟨fun _ _ hopen => ?_, fun _ hne => absurd rfl hne, fun _ hne => absurd rfl hne,
      fun hawaited => absurd hawaited hnot, fun _ hne => absurd htarget hne, h.unlatched⟩
    obtain ⟨hphase, hzero, hid⟩ := h.pending henabled hpending hopen
    have hphase : s.rest.phase = .circuit := hphase
    have hzero : s.rest.capacity.pendingWeight = 0 := hzero
    exact ⟨congrArg some hzero, by simp [standing, noteWriteSuccess, confirmCapacityWrite, hphase, hzero], _, hid⟩
  rcases answer with _ | ⟨_ | _ | _ | _ | _, completedAt⟩
  · exact h
  · exact h
  · exact h
  · exact happlied _
  · exact hunapplied
  · exact hunapplied.of_eq (standing_noteWriteFailure (t := t) .failed)

omit h in
/-- The end of a write starts no status command. -/
theorem settled_target (h : s.circuitStatusTarget = 0) (answer : Option (CommandStatus × Option Time)) :
    (t.settled s answer).circuitStatusTarget = 0 := by
  have hunapplied : (t.resetUnappliedCapacityTransition (forgetWrite s)).circuitStatusTarget = 0 := by
    unfold Setting.resetUnappliedCapacityTransition
    split_ifs
    · rfl
    · exact h
    · exact h
  rcases answer with _ | ⟨_ | _ | _ | _ | _, completedAt⟩
  · exact h
  · exact h
  · exact h
  · exact h
  · exact hunapplied
  · exact hunapplied

theorem Held.statusApplied (hawaited : s.circuitDisabled = true ∨ s.circuitStatusTarget = 1) {target : Int}
    (htarget : s.circuitStatusTarget = target) : Held (t.statusApplied s target) made := by
  have hopen := h.awaited (hawaited.imp_right fun heq => by simp [standing, heq])
  unfold Setting.statusApplied
  split_ifs with hdisabling
  · refine Held.of_confirmed (.inl rfl) hopen.2 (fun henabled => ?_) (fun _ hne => absurd rfl hne) h.unlatched
    rcases hawaited with hdisabled | hone
    · exact absurd henabled (by simp [noteWriteSuccess, resetCounts, hdisabled])
    · omega
  · refine ⟨fun _ _ hopen => ?_, fun _ hne => absurd hopen.2 hne, fun _ hne => absurd hopen.2 hne,
      fun hawaited => ?_, fun _ hne => absurd rfl hne, rfl⟩
    · rcases hopen with hphase | hphase <;> cases hphase
    · rcases hawaited with hdisabled | hne
      · cases hdisabled
      · exact absurd rfl hne

theorem Held.statusFailed
    (hawaited : s.circuitDisabled = true ∨ s.circuitStatusTarget = 1) (target : Int) (e : WriteErr) :
    Held (t.statusFailed s target e) made := by
  have hnoted : Held (t.noteWriteFailure s e) made := h.of_eq (standing_noteWriteFailure e)
  unfold Setting.statusFailed
  split_ifs
  · refine hnoted.resetFailedCircuitEnable ?_ _
    have hkept : (t.noteWriteFailure s e).circuitDisabled = s.circuitDisabled ∧
        (t.noteWriteFailure s e).circuitStatusTarget = s.circuitStatusTarget := by
      cases e <;> exact ⟨rfl, rfl⟩
    rw [hkept.1, hkept.2]
    exact hawaited.imp_right fun heq => by omega
  · exact hnoted

theorem Held.finishFailedWrite : Held (t.finishFailedWrite s) made := by
  have hlatched : s.rest.routineCircuitLatched = false := h.unlatched
  have hown : ¬(s.rest.routineCircuitLatched = true ∧ s.circuitStatusTarget = 2) := by simp [hlatched]
  simp only [Setting.finishFailedWrite]
  split_ifs with hdisabled
  · have hheld : s.circuitDisabled = true := by
      cases hcase : s.circuitDisabled
      · simp [resetCounts, hcase] at hdisabled
      · rfl
    obtain ⟨-, hpending⟩ := h.awaited (.inl hheld)
    refine Held.of_confirmed (.inl rfl) hpending (fun henabled => ?_) (fun _ hne => absurd rfl hne) hlatched
    exact absurd hdisabled (Bool.eq_false_iff.mp henabled)
  · refine Serves.held ?_ made
    exact ⟨.inl rfl, Bool.eq_false_iff.mpr hdisabled, rfl, hlatched⟩

/-- A recovery, or the status command of a disabled channel, changes nothing. -/
theorem Held.entered {id : String} {c : Change}
    (hc : c.rule = .circuitRecovered ∨ s.circuitDisabled = true) : Held s ((id, c) :: made) := by
  rcases hc with hrule | hdisabled
  · have hlast : lastOpening ((id, c) :: made) = lastOpening made := by simp [lastOpening, hrule]
    exact ⟨fun he hp ho => by simpa [Standing.Confirmed, hlast] using h.confirmed he hp ho,
      fun he hp ho => by simpa [hlast] using h.pending he hp ho,
      fun he hp ho => by simpa [Standing.Confirmed, hlast] using h.softStart he hp ho,
      h.awaited, h.enabling, h.unlatched⟩
  · have hnever : ¬(standing s).disabled = false := by simp [standing, hdisabled]
    exact ⟨fun he => absurd he hnever, fun he => absurd he hnever, fun he => absurd he hnever, h.awaited,
      fun he => absurd he hnever, h.unlatched⟩

end Helpers
end ControlTower.Dispatch
