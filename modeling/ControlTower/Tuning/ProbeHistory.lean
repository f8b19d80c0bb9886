import ControlTower.Tuning.ProbeRound

/-! The history of a channel's probe rounds.

The history of a channel holds every write to its row and every decision that
folds a round; the row is what the writes make of it. A job works on the row that
its tick listed, perhaps long ago. As long as no other job of the channel has been
at work since, only two things can have moved the row. A reset moves the revision,
so that no put of the job is taken. A result stamps its command, so that the upsert
keeps it. `JobInv` says where that leaves the job, and there is one lemma for each
of its requests. -/
namespace ControlTower.Tuning
open Go List

/-- What a channel's history holds. -/
inductive Entry where
  | put (v : TickState)
  | mark (c : Change) (id : String) (queued : Bool)
  /-- A decision, on the columns of the round that the tick listed. -/
  | fold (p : ProbeColumns) (d : Decision)
  | record (command : String) (attempts successes slowStreak : Int) (duration : Rat) (now : Time)
  | manualBegun (model : String) (now : Time)
  | ownershipReconciled (previouslyDisabled manualPending : Bool) (capturedAt : Time)

/-- What is not done by a tick. -/
def Entry.outside : Entry → Bool
  | .record .. | .manualBegun .. | .ownershipReconciled .. => true
  | _ => false

def Entry.apply (row : Option (Row Circuit)) : Entry → Option (Row Circuit)
  | .put v => match putContinuousState row v with
    | .ok r => some r
    | .error _ => row
  | .mark c id queued => row.map (c.mark id queued)
  | .fold _ _ => row
  | .record command attempts successes slowStreak duration now =>
    match recordProbeResult row command attempts successes slowStreak duration now with
    | .ok row => row
    | .error _ => row
  | .manualBegun model now => some (beginManual row model {} now)
  | .ownershipReconciled previouslyDisabled manualPending capturedAt =>
    reconcile row previouslyDisabled manualPending {} capturedAt

abbrev History (J : Type) := List (Option J × Option Entry)

/-- The row that a history leaves; `none` in it stands for a deletion. -/
def rowOf {J : Type} (log : History J) : Option (Row Circuit) :=
  log.foldl (fun row e => e.2.elim none (Entry.apply row)) none

/-- The commands whose rounds were folded, as often as they were. -/
def foldsOf {J : Type} (log : History J) : List (Option String) :=
  log.filterMap fun e => match e.2 with
    | some (.fold p _) => some p.lastCommandID
    | _ => none

def probeOf (row : Option (Row Circuit)) : ProbeColumns := (row.map Row.probe).getD {}

/-! ### Histories -/

section Histories
variable {J : Type} {log : History J} {who : Option J} {e : Entry}

@[simp] theorem rowOf_concat : rowOf (log ++ [(who, some e)]) = e.apply (rowOf log) := by
  simp [rowOf]

theorem foldsOf_fold (p : ProbeColumns) (d : Decision) :
    foldsOf (log ++ [(who, some (.fold p d))]) = foldsOf log ++ [p.lastCommandID] := by
  simp [foldsOf]

theorem foldsOf_concat (he : ∀ p d, e ≠ .fold p d) : foldsOf (log ++ [(who, some e)]) = foldsOf log := by
  cases e with
  | fold p d => exact absurd rfl (he p d)
  | _ => simp [foldsOf]

/-- The counts in these columns are the result of their last command. -/
def Recorded (log : History J) (p : ProbeColumns) : Prop :=
  ∃ c now, p.lastCommandID = some c ∧
    (none, some (.record c p.attempts p.successes p.slowStreak p.durationSum now)) ∈ log

theorem Recorded.concat {p : ProbeColumns} (h : Recorded log p) (x : Option J × Option Entry) :
    Recorded (log ++ [x]) p := by
  obtain ⟨c, now, hc, hmem⟩ := h
  exact ⟨c, now, hc, mem_append_left _ hmem⟩

end Histories

/-! ### What a row has seen -/

section Rows
variable {J : Type}

/-- A row and its history: a command that is awaited is new, and a round without
one is finished. -/
structure Sound (issued : List String) (log : History J) (r : Row Circuit) : Prop where
  waiting : ∀ c, r.probe.commandID = some c →
    r.InRound ∧ c ∈ issued ∧ r.probe.lastCommandID ≠ some c ∧ some c ∉ foldsOf log
  last : ∀ c, r.probe.lastCommandID = some c → c ∈ issued
  finished : r.InRound → r.probe.commandID = none → Recorded log r.probe

/-- The row now, as against the row that was listed, for a job in this stage. -/
def Keeps (listed row : Option (Row Circuit)) : Stage → Prop
  | .reading => ∃ a b, listed = some a ∧ row = some b ∧ b.InRound ∧ (b.probe = a.probe ∨
      ∃ c, a.probe.commandID = some c ∧ b.probe.commandID = none ∧ b.probe.lastCommandID = some c)
  | .folded => ∃ b, row = some b ∧ b.probe = probeOf listed ∧ b.probe.commandID = none
  | .closed => ∀ b, row = some b → b.probe.commandID = none ∧ ¬b.InRound ∧
      ((probeOf listed).commandID = none → b.probe.lastCommandID = (probeOf listed).lastCommandID)
  | .opening _ => ∀ b, row = some b → b.probe.commandID = none ∧
      b.probe.lastCommandID = (probeOf listed).lastCommandID
  | .launched => True

/-- Since the list only results and resets came in between. -/
structure Follows (listed row : Option (Row Circuit)) (st : Stage) : Prop where
  kept : listed.isSome → row.isSome
  revision : revisionOf listed ≤ revisionOf row
  reset : revisionOf listed < revisionOf row → ∃ b, row = some b ∧ b.probe.commandID = none ∧
    b.probe.lastCommandID = none ∧ ¬b.InRound
  round : revisionOf listed = revisionOf row → Keeps listed row st

variable {listed row : Option (Row Circuit)} {st : Stage}

/-- A new owner starts without a round. -/
theorem Follows.of_reset (h : Follows listed row st) {b : Row Circuit}
    (hrev : revisionOf row < b.controlRevision) (hcmd : b.probe = {}) (hphase : b.rest.phase = .normal) :
    Follows listed (some b) st := by
  have hlt : revisionOf listed < revisionOf (some b) := Nat.lt_of_le_of_lt h.revision hrev
  refine ⟨fun _ => rfl, Nat.le_of_lt hlt, fun _ => ⟨b, rfl, ?_, ?_, ?_⟩, fun heq => ?_⟩
  · rw [hcmd]
  · rw [hcmd]
  · intro hin
    have hprobing := hin.1
    rw [hphase] at hprobing
    cases hprobing
  · exact absurd heq (Nat.ne_of_lt hlt)

/-- The row of a record: the awaited command is stamped and its counts are taken. -/
theorem record_cases (row : Option (Row Circuit)) (command : String)
    (attempts successes slowStreak : Int) (duration : Rat) (now : Time) :
    (Entry.record command attempts successes slowStreak duration now).apply row = row ∨
      ∃ b, row = some b ∧ b.probe.commandID = some command ∧
        (Entry.record command attempts successes slowStreak duration now).apply row =
          some {b with
            probe := ⟨none, some command, attempts, successes, duration, slowStreak⟩
            updatedAt := now} := by
  simp only [Entry.apply, recordProbeResult]
  split
  · rename_i hok
    split at hok
    · cases hok
    · cases hok
      cases row with
      | none => exact .inl rfl
      | some b =>
        simp only [Option.map_some]
        split
        · rename_i hcmd
          exact .inr ⟨b, rfl, hcmd, rfl⟩
        · exact .inl rfl
  · exact .inl rfl

/-- The row of a reset: nothing, or a new owner's. -/
theorem reset_cases (row : Option (Row Circuit)) {e : Entry} (he : e.outside = true)
    (hrecord : ∀ command attempts successes slowStreak duration now,
      e ≠ .record command attempts successes slowStreak duration now) :
    e.apply row = row ∨ ∃ b, e.apply row = some b ∧ revisionOf row < b.controlRevision ∧
      b.probe = {} ∧ b.rest.phase = .normal := by
  cases e with
  | put v => cases he
  | mark c id queued => cases he
  | fold p d => cases he
  | record command attempts successes slowStreak duration now => exact absurd rfl (hrecord _ _ _ _ _ _)
  | manualBegun model now =>
    right
    refine ⟨_, rfl, ?_, rfl, rfl⟩
    cases row with
    | none => exact Nat.lt_succ_self _
    | some r => exact Nat.lt_succ_self _
  | ownershipReconciled previouslyDisabled manualPending capturedAt =>
    cases row with
    | none => exact .inl rfl
    | some r =>
      simp only [Entry.apply, reconcile, Option.map_some]
      split
      · exact .inr ⟨_, rfl, Nat.lt_succ_self _, rfl, rfl⟩
      · exact .inl rfl

/-- What comes in from outside is a result or a reset. -/
theorem Follows.outside (h : Follows listed row st) {e : Entry} (he : e.outside = true) :
    Follows listed (e.apply row) st := by
  have hreset : (e.apply row = row ∨ ∃ b, e.apply row = some b ∧ revisionOf row < b.controlRevision ∧
      b.probe = {} ∧ b.rest.phase = .normal) → Follows listed (e.apply row) st := by
    rintro (hsame | ⟨b, hb, hrev, hprobe, hphase⟩)
    · rwa [hsame]
    · rw [hb]
      exact h.of_reset hrev hprobe hphase
  cases e with
  | record command attempts successes slowStreak duration now =>
    rcases record_cases row command attempts successes slowStreak duration now with hsame | ⟨b, rfl, hcmd, hb⟩
    · rwa [hsame]
    · -- The row awaited this command: nobody reset it, and the job only read it.
      have hrev : revisionOf listed = revisionOf (some b) := by
        rcases Nat.lt_or_eq_of_le h.revision with hlt | heq
        · obtain ⟨b', hb', hnone, -⟩ := h.reset hlt
          cases hb'
          rw [hcmd] at hnone
          cases hnone
        · exact heq
      rw [hb]
      refine ⟨fun _ => rfl, h.revision, fun hlt => absurd hrev (Nat.ne_of_lt hlt), fun _ => ?_⟩
      have hkeeps := h.round hrev
      cases st with
      | reading =>
        obtain ⟨a, b', rfl, hb', hround, hprobe⟩ := hkeeps
        cases hb'
        refine ⟨a, _, rfl, rfl, hround, .inr ⟨command, ?_, rfl, rfl⟩⟩
        rcases hprobe with hprobe | ⟨c, -, hnone, -⟩
        · rw [← hprobe]
          exact hcmd
        · rw [hcmd] at hnone
          cases hnone
      | folded =>
        obtain ⟨b', hb', -, hnone⟩ := hkeeps
        cases hb'
        rw [hcmd] at hnone
        cases hnone
      | closed =>
        have hnone := (hkeeps b rfl).1
        rw [hcmd] at hnone
        cases hnone
      | opening id =>
        have hnone := (hkeeps b rfl).1
        rw [hcmd] at hnone
        cases hnone
      | launched => trivial
  | _ => exact hreset (reset_cases row he (fun _ _ _ _ _ _ => by simp))

end Rows

/-! ### One channel -/

section Channel
variable {J : Type}

def Stage.deciding : Stage → Prop
  | .folded | .opening _ => True
  | _ => False

/-- A channel's history, and whether a job of it has folded a round that is still there. -/
structure ChannelInv (issued : List String) (log : History J) (deciding : Prop) : Prop where
  /-- Nobody deletes the row. -/
  undeleted : ∀ x, (none, x) ∈ log → ∃ e, x = some e ∧ e.outside = true
  sound : ∀ b, rowOf log = some b → Sound issued log b
  once : (foldsOf log).Nodup
  folded : ∀ who p d, (who, some (.fold p d)) ∈ log → Recorded log p
  issued : ∀ c, some c ∈ foldsOf log → c ∈ issued
  pending : ∀ b, rowOf log = some b → b.InRound → b.probe.commandID = none →
    b.probe.lastCommandID ∈ foldsOf log → deciding

/-- What a tick listed, in view of the history since. -/
structure Listed (issued : List String) (log : History J) (listed : Option (Row Circuit)) : Prop where
  waiting : (readState listed).probeCommandID ≠ none → (readState listed).InRound
  last : ∀ c, (probeOf listed).lastCommandID = some c → c ∈ issued
  finished : (readState listed).InRound → (readState listed).probeCommandID = none →
    Recorded log (probeOf listed)

/-- A running job of the channel, in view of its history. -/
structure JobInv (issued : List String) (log : History J) (listed : Option (Row Circuit)) (st : Stage)
    (work : Eval) : Prop where
  allowed : Allowed (readState listed) st work
  seen : Listed issued log listed
  follows : Follows listed (rowOf log) st
  unfolded : st = .reading → (readState listed).probeCommandID = none →
    (probeOf listed).lastCommandID ∉ foldsOf log
  opening : ∀ id, st = .opening id →
    id ∈ issued ∧ some id ∉ foldsOf log ∧ (probeOf listed).lastCommandID ≠ some id

variable {issued : List String} {log : History J} {deciding : Prop} {listed : Option (Row Circuit)}
variable {st : Stage} {work : Eval} {e : Entry}

theorem outside_not_fold (he : e.outside = true) (p : ProbeColumns) (d : Decision) : e ≠ .fold p d := by
  rintro rfl
  cases he

theorem Listed.concat (h : Listed issued log listed) (x : Option J × Option Entry) :
    Listed issued (log ++ [x]) listed :=
  ⟨h.waiting, h.last, fun hin hcmd => (h.finished hin hcmd).concat x⟩

/-- Any entry but a fold: it is enough to look at the row. -/
theorem ChannelInv.concat (h : ChannelInv issued log deciding) {who : Option J} {deciding' : Prop}
    (hwho : who = none → e.outside = true) (he : ∀ p d, e ≠ .fold p d)
    (hsound : ∀ b, e.apply (rowOf log) = some b → Sound issued (log ++ [(who, some e)]) b)
    (hpending : ∀ b, e.apply (rowOf log) = some b → b.InRound → b.probe.commandID = none →
      b.probe.lastCommandID ∈ foldsOf log → deciding') :
    ChannelInv issued (log ++ [(who, some e)]) deciding' := by
  refine ⟨?_, ?_, ?_, ?_, ?_, ?_⟩
  · intro x hx
    rcases mem_append.mp hx with hx | hx
    · exact h.undeleted x hx
    · simp only [mem_singleton, Prod.mk.injEq] at hx
      exact ⟨e, hx.2, hwho hx.1.symm⟩
  · simpa using hsound
  · rw [foldsOf_concat he]
    exact h.once
  · intro who' p d hmem
    rcases mem_append.mp hmem with hmem | hmem
    · exact (h.folded who' p d hmem).concat _
    · simp only [mem_singleton, Prod.mk.injEq, Option.some.injEq] at hmem
      exact absurd hmem.2.symm (he p d)
  · rw [foldsOf_concat he]
    exact h.issued
  · rw [foldsOf_concat he]
    simpa using hpending

/-- Any entry but a fold, for the job. -/
theorem JobInv.concat (h : JobInv issued log listed st work) {who : Option J} {st' : Stage} {work' : Eval}
    (he : ∀ p d, e ≠ .fold p d) (hallowed : Allowed (readState listed) st' work')
    (hfollows : Follows listed (e.apply (rowOf log)) st') (hreading : st' = .reading → st = .reading)
    (hopening : ∀ id, st' = .opening id → st = .opening id) :
    JobInv issued (log ++ [(who, some e)]) listed st' work' := by
  refine ⟨hallowed, h.seen.concat _, by simpa using hfollows, ?_, ?_⟩
  · rw [foldsOf_concat he]
    exact fun hst => h.unfolded (hreading hst)
  · rw [foldsOf_concat he]
    exact fun id hst => h.opening id (hopening id hst)

/-- A job that has folded a round still has to put it. -/
theorem Allowed.not_deciding {u : TickState} (h : Allowed u st .done) : ¬st.deciding := by
  cases h with
  | done hst =>
    rcases hst with rfl | rfl | rfl
    · exact id
    · exact id
    · exact id

theorem listed_none : Listed issued log none := by
  refine ⟨fun hne => absurd rfl hne, fun c hc => ?_, fun hin => ?_⟩
  · cases hc
  · cases hin.1

theorem ChannelInv.imp (h : ChannelInv issued log deciding) {deciding' : Prop}
    (hd : deciding → deciding') : ChannelInv issued log deciding' :=
  ⟨h.undeleted, h.sound, h.once, h.folded, h.issued, fun b hb hin hcmd hlast => hd (h.pending b hb hin hcmd hlast)⟩

/-- More commands were issued. -/
theorem ChannelInv.issue (h : ChannelInv issued log deciding) (id : String) :
    ChannelInv (id :: issued) log deciding := by
  refine ⟨h.undeleted, fun b hb => ?_, h.once, h.folded, fun c hc => mem_cons_of_mem _ (h.issued c hc),
    h.pending⟩
  obtain ⟨hw, hl, hf⟩ := h.sound b hb
  refine ⟨fun c hc => ?_, fun c hc => mem_cons_of_mem _ (hl c hc), hf⟩
  obtain ⟨h₁, h₂, h₃⟩ := hw c hc
  exact ⟨h₁, mem_cons_of_mem _ h₂, h₃⟩

theorem Listed.issue (h : Listed issued log listed) (id : String) : Listed (id :: issued) log listed :=
  ⟨h.waiting, fun c hc => mem_cons_of_mem _ (h.last c hc), h.finished⟩

theorem JobInv.issue (h : JobInv issued log listed st work) (id : String) :
    JobInv (id :: issued) log listed st work := by
  refine ⟨h.allowed, h.seen.issue id, h.follows, h.unfolded, fun id' hst => ?_⟩
  obtain ⟨h₁, h₂⟩ := h.opening id' hst
  exact ⟨mem_cons_of_mem _ h₁, h₂⟩

/-! #### Results and resets -/

theorem ChannelInv.outside (h : ChannelInv issued log deciding) (he : e.outside = true) :
    ChannelInv issued (log ++ [(none, some e)]) deciding := by
  have hfold := outside_not_fold he
  -- A row that stays as it is stays sound; a new owner's row has nothing to be sound about.
  have hreset : (e.apply (rowOf log) = rowOf log ∨ ∃ b, e.apply (rowOf log) = some b ∧
      revisionOf (rowOf log) < b.controlRevision ∧ b.probe = {} ∧ b.rest.phase = .normal) →
      ChannelInv issued (log ++ [(none, some e)]) deciding := by
    rintro (hsame | ⟨r, hr, -, hprobe, hphase⟩)
    · refine h.concat (fun _ => he) hfold (fun b hb => ?_) fun b hb => h.pending b (hsame ▸ hb)
      obtain ⟨hw, hl, hf⟩ := h.sound b (hsame ▸ hb)
      refine ⟨?_, hl, fun hin hcmd => (hf hin hcmd).concat _⟩
      rw [foldsOf_concat hfold]
      exact hw
    · have hround : ¬r.InRound := by
        intro hin
        have hprobing := hin.1
        rw [hphase] at hprobing
        cases hprobing
      refine h.concat (fun _ => he) hfold (fun b hb => ?_) fun b hb hin => ?_
      · rw [hr] at hb
        cases hb
        refine ⟨fun c hc => ?_, fun c hc => ?_, fun hin => absurd hin hround⟩
        · rw [hprobe] at hc
          cases hc
        · rw [hprobe] at hc
          cases hc
      · rw [hr] at hb
        cases hb
        exact absurd hin hround
  cases e with
  | record command attempts successes slowStreak duration now =>
    rcases record_cases (rowOf log) command attempts successes slowStreak duration now with
      hsame | ⟨r, hr, hcmd, hrec⟩
    · exact hreset (.inl hsame)
    · obtain ⟨hround, hissued, -, hnew⟩ := (h.sound r hr).waiting command hcmd
      refine h.concat (fun _ => he) hfold (fun b hb => ?_) fun b hb _ _ hfolded => ?_
      · rw [hrec] at hb
        cases hb
        refine ⟨fun c hc => ?_, fun c hc => ?_, fun _ _ => ⟨command, now, rfl, ?_⟩⟩
        · cases hc
        · cases hc
          exact hissued
        · exact mem_append_right _ (mem_singleton_self _)
      · rw [hrec] at hb
        cases hb
        exact absurd hfolded hnew
  | _ => exact hreset (reset_cases _ he (fun _ _ _ _ _ _ => by simp))

theorem JobInv.outside (h : JobInv issued log listed st work) (he : e.outside = true) :
    JobInv issued (log ++ [(none, some e)]) listed st work :=
  h.concat (outside_not_fold he) h.allowed (h.follows.outside he) id fun _ => id

/-! #### A put -/

theorem readState_revision (row : Option (Row Circuit)) :
    (readState row).controlRevision = revisionOf row := by
  cases row <;> rfl

theorem readState_command (row : Option (Row Circuit)) :
    (readState row).probeCommandID = (probeOf row).commandID := by
  cases row <;> rfl

/-- A put is committed when nobody moved the revision; the row is then the state's,
with the columns of the probe as the upsert leaves them. -/
theorem put_cases (row : Option (Row Circuit)) (v : TickState) :
    (∃ e, putContinuousState row v = .error e ∧ revisionOf row ≠ v.controlRevision) ∨
      ∃ b, putContinuousState row v = .ok b ∧ (Entry.put v).apply row = some b ∧
        revisionOf row = v.controlRevision ∧ b.controlRevision = revisionOf row ∧
        b.probe = (probeOf row).upsert v ∧ (b.InRound ↔ v.InRound) := by
  by_cases heq : revisionOf row = v.controlRevision
  · have hput : putContinuousState row v = .ok _ := if_neg (not_not.mpr heq)
    refine .inr ⟨_, hput, ?_, heq, rfl, rfl, Iff.rfl⟩
    simp only [Entry.apply, hput]
  · exact .inl ⟨_, if_pos heq, heq⟩

variable {v : TickState}

/-- A state that still has the listed round changes nothing in a row that has it,
or that has its result. -/
theorem upsert_same {a b : Row Circuit} (hs : Same (readState (some a)) v)
    (hb : b.probe = a.probe ∨ ∃ c, a.probe.commandID = some c ∧ b.probe.commandID = none ∧
      b.probe.lastCommandID = some c) : b.probe.upsert v = b.probe := by
  have hcmd : v.probeCommandID = a.probe.commandID := hs.command
  unfold ProbeColumns.upsert
  split
  · rfl
  · rename_i hkeep
    rcases hb with hb | ⟨c, hc, -, hlast⟩
    · rw [hcmd, hs.attempts, hs.successes, hs.duration, hs.slow, hb]
      rfl
    · exact absurd ⟨by rw [hcmd, hc]; simp, by rw [hcmd, hc, hlast]⟩ hkeep

theorem upsert_of_ne {p : ProbeColumns}
    (h : v.probeCommandID = none ∨ v.probeCommandID ≠ p.lastCommandID) :
    (p.upsert v).commandID = v.probeCommandID ∧ (p.upsert v).lastCommandID = p.lastCommandID := by
  unfold ProbeColumns.upsert
  rw [if_neg]
  · exact ⟨rfl, rfl⟩
  · rintro ⟨hsome, heq⟩
    rcases h with h | h
    · exact hsome h
    · exact h heq

/-- The last command of a row whose round the job has not seen recorded. -/
theorem Follows.last (h : Follows listed (rowOf log) st) (hrev : revisionOf listed = revisionOf (rowOf log))
    (hst : st ≠ .launched) (hcmd : (probeOf listed).commandID = none) :
    (probeOf (rowOf log)).lastCommandID = (probeOf listed).lastCommandID := by
  have hkeeps := h.round hrev
  cases hrow : rowOf log with
  | none =>
    -- A row that is there now was there, or not, when it was listed.
    cases hlisted : listed with
    | none => rfl
    | some a =>
      have hkept := h.kept
      rw [hrow, hlisted] at hkept
      cases hkept rfl
  | some b =>
    rw [hrow] at hkeeps
    cases st with
    | reading =>
      obtain ⟨a, b', rfl, hb', -, hprobe | ⟨c, hc, -⟩⟩ := hkeeps
      · cases hb'
        show b.probe.lastCommandID = a.probe.lastCommandID
        rw [hprobe]
      · have hnone : a.probe.commandID = none := hcmd
        rw [hc] at hnone
        cases hnone
    | folded =>
      obtain ⟨b', hb', hprobe, -⟩ := hkeeps
      cases hb'
      show b.probe.lastCommandID = _
      rw [hprobe]
    | closed => exact (hkeeps b rfl).2.2 hcmd
    | opening id => exact (hkeeps b rfl).2
    | launched => exact absurd rfl hst

variable (hc : ChannelInv issued log deciding)
include hc

variable {next : Bool → Eval}

/-- A committed put goes on as the job is allowed to. -/
theorem JobInv.put_ok (hd : deciding → st.deciding) {j : J}
    (hj : JobInv issued log listed st (.put v next)) {b : Row Circuit}
    (hput : putContinuousState (rowOf log) v = .ok b) :
    ChannelInv issued (log ++ [(some j, some (.put v))]) False ∧
      ∃ st', JobInv issued (log ++ [(some j, some (.put v))]) listed st' (next true) := by
  have hfold : ∀ p d, Entry.put v ≠ .fold p d := fun _ _ h => by cases h
  obtain ⟨e, herr, -⟩ | ⟨b', hok, happly, hcur, hrevb, hprobe, hround⟩ := put_cases (rowOf log) v
  · rw [hput] at herr
    cases herr
  rw [hput] at hok
  cases hok
  have hrev : v.controlRevision = (readState listed).controlRevision →
      revisionOf listed = revisionOf (rowOf log) := by
    intro h
    rw [hcur, h, readState_revision]
  -- The revision stays, so only the stage and the columns of the round are to be looked at.
  have hfollows : ∀ st', revisionOf listed = revisionOf (rowOf log) → Keeps listed (some b) st' →
      Follows listed ((Entry.put v).apply (rowOf log)) st' := by
    intro st' heq hkeeps
    have hsame : revisionOf listed = revisionOf (some b) := heq.trans hrevb.symm
    rw [happly]
    exact ⟨fun _ => rfl, Nat.le_of_eq hsame, fun hlt => absurd hsame (Nat.ne_of_lt hlt), fun _ => hkeeps⟩
  cases hj.allowed with
  | keep hs hnext =>
    have heq := hrev hs.revision
    obtain ⟨a, b₀, rfl, hb₀, hin, hor⟩ := hj.follows.round heq
    have hprobe : b.probe = b₀.probe := by
      rw [hprobe, hb₀]
      exact upsert_same hs hor
    obtain ⟨hw, hl, hf⟩ := hc.sound b₀ hb₀
    have hin' : b.InRound := hround.mpr hs.round
    refine ⟨hc.concat (fun h => by cases h) hfold (fun r hr => ?_) fun r hr _ hcmd hfolded => ?_, .reading,
      hj.concat hfold (hnext true) (hfollows _ heq ⟨a, b, rfl, rfl, hin', ?_⟩) id fun _ => id⟩
    · rw [happly] at hr
      cases hr
      refine ⟨?_, ?_, ?_⟩
      · rw [foldsOf_concat hfold, hprobe]
        exact fun c hcmd => ⟨hin', (hw c hcmd).2⟩
      · rw [hprobe]
        exact hl
      · rw [hprobe]
        exact fun _ hcmd => (hf hin hcmd).concat _
    · rw [happly] at hr
      cases hr
      rw [hprobe] at hcmd hfolded
      exact hd (hc.pending b₀ hb₀ hin hcmd hfolded)
    · rwa [hprobe]
  | close hst hs hnext =>
    have heq := hrev hs.revision
    obtain ⟨hcmd, hlast⟩ := upsert_of_ne (p := probeOf (rowOf log)) (.inl hs.command)
    rw [← hprobe, hs.command] at hcmd
    rw [← hprobe] at hlast
    have hover : ¬b.InRound := fun h => hs.ended (hround.mp h)
    refine ⟨hc.concat (fun h => by cases h) hfold (fun r hr => ?_) fun r hr hin => ?_, .closed,
      hj.concat hfold (hnext true) (hfollows _ heq ?_) (fun h => by cases h) fun _ h => by cases h⟩
    · rw [happly] at hr
      cases hr
      refine ⟨fun c h => ?_, fun c h => ?_, fun hin => absurd hin hover⟩
      · rw [hcmd] at h
        cases h
      · rw [hlast] at h
        cases hrow : rowOf log with
        | none =>
          rw [hrow] at h
          cases h
        | some b₀ =>
          rw [hrow] at h
          exact (hc.sound b₀ hrow).last c h
    · rw [happly] at hr
      cases hr
      exact absurd hin hover
    · intro r hr
      cases hr
      refine ⟨hcmd, hover, fun hnone => hlast.trans (hj.follows.last heq ?_ hnone)⟩
      rintro rfl
      simp at hst
  | launch hrevv hid hs hnext =>
    rename_i id
    have heq := hrev hrevv
    obtain ⟨hissued, hnew, hne⟩ := hj.opening id rfl
    have hrow : ∀ b₀, rowOf log = some b₀ → b₀.probe.lastCommandID = (probeOf listed).lastCommandID :=
      fun b₀ hb₀ => (hj.follows.round heq b₀ hb₀).2
    have hold : (probeOf (rowOf log)).lastCommandID ≠ some id := by
      cases hr : rowOf log with
      | none => simp [probeOf]
      | some b₀ =>
        show b₀.probe.lastCommandID ≠ some id
        rw [hrow b₀ hr]
        exact hne
    obtain ⟨hcmd, hlast⟩ := upsert_of_ne (p := probeOf (rowOf log)) (v := v) (.inr (by
      rw [hid]
      exact hold.symm))
    rw [← hprobe, hid] at hcmd
    rw [← hprobe] at hlast
    refine ⟨hc.concat (fun h => by cases h) hfold (fun r hr => ?_) fun r hr _ hnone => ?_, .launched,
      hj.concat hfold (hnext true) (hfollows _ heq trivial) (fun h => by cases h) fun _ h => by cases h⟩
    · rw [happly] at hr
      cases hr
      refine ⟨fun c h => ?_, fun c h => ?_, fun _ hnone => ?_⟩
      · rw [hcmd] at h
        cases h
        rw [foldsOf_concat hfold, hlast]
        exact ⟨hround.mpr hs, hissued, hold, hnew⟩
      · rw [hlast] at h
        cases hr : rowOf log with
        | none =>
          rw [hr] at h
          cases h
        | some b₀ =>
          rw [hr] at h
          exact (hc.sound b₀ hr).last c h
      · rw [hcmd] at hnone
        cases hnone
    · rw [happly] at hr
      cases hr
      rw [hcmd] at hnone
      cases hnone

/-- A put that was refused: the row has a new owner, and no round. -/
theorem JobInv.put_error (hd : deciding → st.deciding) (hj : JobInv issued log listed st (.put v next)) {e : StoreErr}
    (hput : putContinuousState (rowOf log) v = .error e) :
    ChannelInv issued log False ∧ ∃ st', JobInv issued log listed st' (next false) := by
  have hne : revisionOf (rowOf log) ≠ v.controlRevision := by
    obtain ⟨e', -, hne⟩ | ⟨b', hok, -⟩ := put_cases (rowOf log) v
    · exact hne
    · rw [hput] at hok
      cases hok
  have hlt : v.controlRevision = (readState listed).controlRevision →
      revisionOf listed < revisionOf (rowOf log) := by
    intro h
    rw [h, readState_revision] at hne
    exact Nat.lt_of_le_of_ne hj.follows.revision hne.symm
  -- From here on the job may be in any stage that does not fold.
  have hmoved : ∀ st', revisionOf listed < revisionOf (rowOf log) → st' ≠ .reading →
      (∀ id, st' ≠ .opening id) → Allowed (readState listed) st' (next false) →
      ChannelInv issued log False ∧ ∃ st', JobInv issued log listed st' (next false) := by
    intro st' hrev hreading hopening hallowed
    obtain ⟨b, hb, -, -, hover⟩ := hj.follows.reset hrev
    refine ⟨⟨hc.undeleted, hc.sound, hc.once, hc.folded, hc.issued, fun b' hb' hin => ?_⟩, st',
      hallowed, hj.seen, ⟨hj.follows.kept, hj.follows.revision, hj.follows.reset, fun heq => ?_⟩,
      fun h => absurd h hreading, fun id h => absurd h (hopening id)⟩
    · rw [hb] at hb'
      cases hb'
      exact absurd hin hover
    · exact absurd heq (Nat.ne_of_lt hrev)
  cases hj.allowed with
  | keep hs hnext =>
    exact ⟨hc.imp hd, .reading, hnext false, hj.seen, hj.follows, hj.unfolded, hj.opening⟩
  | close _ hs hnext => exact hmoved .closed (hlt hs.revision) (by simp) (by simp) (hnext false)
  | launch hrev _ _ hnext => exact hmoved .launched (hlt hrev) (by simp) (by simp) (hnext false)

omit hc in
/-- A put after a result came in leaves the result, or gives up its round. -/
theorem JobInv.put_keeps
    (hj : JobInv issued log listed st (.put v next))
    (hlast : (probeOf (rowOf log)).lastCommandID ≠ (probeOf listed).lastCommandID) :
    probeOf ((Entry.put v).apply (rowOf log)) = probeOf (rowOf log) ∨
      (v.probeCommandID = none ∧ v.rest.phase ≠ .probing) := by
  obtain ⟨e, herr, -⟩ | ⟨b, -, happly, hcur, -, hprobe, -⟩ := put_cases (rowOf log) v
  · left
    simp only [Entry.apply, herr]
  have hrev : v.controlRevision = (readState listed).controlRevision →
      revisionOf listed = revisionOf (rowOf log) := by
    intro hv
    rw [hcur, hv, readState_revision]
  cases hj.allowed with
  | keep hsame hnext =>
    obtain ⟨a, b₀, rfl, hb₀, -, hor⟩ := hj.follows.round (hrev hsame.revision)
    left
    rw [happly, hb₀]
    show b.probe = b₀.probe
    rw [hprobe, hb₀]
    exact upsert_same hsame hor
  | close hst hclosing hnext =>
    right
    refine ⟨hclosing.command, hclosing.abandons fun hnone => hlast ?_⟩
    refine hj.follows.last (hrev hclosing.revision) ?_ (readState_command listed ▸ hnone)
    rintro rfl
    simp at hst
  | launch hrevv _ _ _ =>
    -- A new round is launched when no result was awaited.
    refine absurd ?_ hlast
    cases hrow : rowOf log with
    | none =>
      have hkept := hj.follows.kept
      rw [hrow] at hkept
      cases listed with
      | none => rfl
      | some a => cases hkept rfl
    | some b₀ => exact (hj.follows.round (hrev hrevv) b₀ hrow).2

/-! #### The other requests -/

theorem JobInv.fold {j : J} {d : Decision} {next : Eval} (hj : JobInv issued log listed st (.fold d next)) :
    ChannelInv issued (log ++ [(some j, some (.fold (probeOf listed) d))]) True ∧
      JobInv issued (log ++ [(some j, some (.fold (probeOf listed) d))]) listed .folded next := by
  cases hj.allowed with
  | fold hin hcmd hnext =>
    have hrecorded := hj.seen.finished hin hcmd
    have hnew := hj.unfolded rfl hcmd
    have hrow : rowOf (log ++ [(some j, some (.fold (probeOf listed) d))]) = rowOf log := rowOf_concat
    -- The row awaits nothing: it is the listed one, or a new owner's.
    have hidle : ∀ b, rowOf log = some b → b.probe.commandID = none := by
      intro b hb
      rcases Nat.lt_or_eq_of_le hj.follows.revision with hlt | heq
      · obtain ⟨b', hb', hnone, -⟩ := hj.follows.reset hlt
        rw [hb] at hb'
        cases hb'
        exact hnone
      · obtain ⟨a, b', rfl, hb', -, hprobe | ⟨c', -, hnone, -⟩⟩ := hj.follows.round heq
        · rw [hb] at hb'
          cases hb'
          rw [hprobe]
          exact hcmd
        · rw [hb] at hb'
          cases hb'
          exact hnone
    refine ⟨⟨?_, ?_, ?_, ?_, ?_, fun _ _ _ _ _ => trivial⟩, hnext, hj.seen.concat _, ?_, ?_, ?_⟩
    · intro x hx
      rcases mem_append.mp hx with hx | hx
      · exact hc.undeleted x hx
      · simp at hx
    · intro b hb
      rw [hrow] at hb
      obtain ⟨-, hl, hf⟩ := hc.sound b hb
      refine ⟨fun c' hc' => ?_, hl, fun h h' => (hf h h').concat _⟩
      rw [hidle b hb] at hc'
      cases hc'
    · rw [foldsOf_fold, nodup_append]
      refine ⟨hc.once, by simp, ?_⟩
      intro x hx y hy
      rw [mem_singleton.mp hy]
      rintro rfl
      exact hnew hx
    · intro who' p d' hmem
      rcases mem_append.mp hmem with hmem | hmem
      · exact (hc.folded who' p d' hmem).concat _
      · simp only [mem_singleton, Prod.mk.injEq, Option.some.injEq, Entry.fold.injEq] at hmem
        obtain ⟨-, rfl, -⟩ := hmem
        exact hrecorded.concat _
    · intro c' hc'
      rw [foldsOf_fold] at hc'
      rcases mem_append.mp hc' with hc' | hc'
      · exact hc.issued c' hc'
      · exact hj.seen.last c' (mem_singleton.mp hc').symm
    · rw [hrow]
      refine ⟨hj.follows.kept, hj.follows.revision, hj.follows.reset, fun heq => ?_⟩
      obtain ⟨a, b, rfl, hb, -, hprobe | ⟨c', hc', -⟩⟩ := hj.follows.round heq
      · exact ⟨b, hb, hprobe, hidle b hb⟩
      · have hnone : a.probe.commandID = none := hcmd
        rw [hc'] at hnone
        cases hnone
    · intro h
      cases h
    · intro id h
      cases h

omit hc in
/-- The marker of a command leaves the columns of the round, and starts none. -/
theorem mark_spec {c : Change} (hstatus : ∀ target, c.status = some target → target ≠ 0) (id : String)
    (queued : Bool) (r : Row Circuit) :
    (c.mark id queued r).controlRevision = r.controlRevision ∧ (c.mark id queued r).probe = r.probe ∧
      (¬r.InRound → ¬(c.mark id queued r).InRound) := by
  unfold Change.mark
  split
  · exact ⟨rfl, rfl, fun h => h⟩
  · split
    · rename_i target htarget
      split
      · exact ⟨rfl, rfl, fun _ hin => hstatus target htarget hin.2⟩
      · exact ⟨rfl, rfl, fun h => h⟩
    · split
      · exact ⟨rfl, rfl, fun h => h⟩
      · exact ⟨rfl, rfl, fun h => h⟩

theorem JobInv.mark {j : J} {c : Change}
    {next : Created → Eval} (hj : JobInv issued log listed st (.change c next)) (id : String) (clock : Time)
    (queued : Bool) :
    ChannelInv issued (log ++ [(some j, some (.mark c id queued))]) False ∧
      JobInv issued (log ++ [(some j, some (.mark c id queued))]) listed .closed
        (next (.made id clock queued)) := by
  have hfold : ∀ p d, Entry.mark c id queued ≠ .fold p d := fun _ _ h => by cases h
  cases hj.allowed with
  | change hstatus hnext =>
    -- Whoever owns the row, it has no round.
    have hrow : ∀ b, rowOf log = some b → b.probe.commandID = none ∧ ¬b.InRound := by
      intro b hb
      rcases Nat.lt_or_eq_of_le hj.follows.revision with hlt | heq
      · obtain ⟨b', hb', hnone, -, hover⟩ := hj.follows.reset hlt
        rw [hb] at hb'
        cases hb'
        exact ⟨hnone, hover⟩
      · obtain ⟨hnone, hover, -⟩ := hj.follows.round heq b hb
        exact ⟨hnone, hover⟩
    have hmarked : ∀ b', (Entry.mark c id queued).apply (rowOf log) = some b' →
        ∃ b, rowOf log = some b ∧ b'.controlRevision = b.controlRevision ∧ b'.probe = b.probe ∧
          b.probe.commandID = none ∧ ¬b'.InRound := by
      intro b' hb'
      cases hr : rowOf log with
      | none =>
        rw [hr] at hb'
        cases hb'
      | some b =>
        rw [hr] at hb'
        cases hb'
        obtain ⟨h₁, h₂, h₃⟩ := mark_spec hstatus id queued b
        exact ⟨b, rfl, h₁, h₂, (hrow b hr).1, h₃ (hrow b hr).2⟩
    refine ⟨hc.concat (fun h => by cases h) hfold (fun b' hb' => ?_) fun b' hb' hin => ?_,
      hj.concat hfold (hnext _) ?_ (fun h => by cases h) fun _ h => by cases h⟩
    · obtain ⟨b, hb, -, hprobe, hnone, hover⟩ := hmarked b' hb'
      refine ⟨fun c' hc' => ?_, ?_, fun hin => absurd hin hover⟩
      · rw [hprobe, hnone] at hc'
        cases hc'
      · rw [hprobe]
        exact (hc.sound b hb).last
    · obtain ⟨b, -, -, -, -, hover⟩ := hmarked b' hb'
      exact absurd hin hover
    · cases hr : rowOf log with
      | none =>
        rw [← hr]
        have hf := hj.follows
        have hsame : (Entry.mark c id queued).apply (rowOf log) = rowOf log := by rw [hr]; rfl
        rwa [hsame]
      | some b =>
        obtain ⟨h₁, h₂, h₃⟩ := mark_spec hstatus id queued b
        have hf := hj.follows
        rw [hr] at hf
        have hrev : revisionOf (some (c.mark id queued b)) = revisionOf (some b) := h₁
        refine ⟨fun _ => rfl, ?_, ?_, ?_⟩
        · show revisionOf listed ≤ revisionOf (some (c.mark id queued b))
          rw [hrev]
          exact hf.revision
        · show revisionOf listed < revisionOf (some (c.mark id queued b)) → _
          rw [hrev]
          intro hlt
          obtain ⟨b', hb', hnone, hlast, hover⟩ := hf.reset hlt
          cases hb'
          exact ⟨_, rfl, h₂ ▸ hnone, h₂ ▸ hlast, h₃ hover⟩
        · show revisionOf listed = revisionOf (some (c.mark id queued b)) → _
          rw [hrev]
          intro heq b' hb'
          cases hb'
          obtain ⟨hnone, hover, hlast⟩ := hf.round heq b rfl
          rw [h₂]
          exact ⟨hnone, h₃ hover, hlast⟩

/-- A probe that could not be created changes nothing; one that was is on its way. -/
theorem JobInv.probe {next : Option String → Eval}
    (hj : JobInv issued log listed st (.probe next)) {id : String} (hid : id ∉ issued) :
    JobInv (id :: issued) log listed (.opening id) (next (some id)) := by
  cases hj.allowed with
  | probe hst hcmd hnone hsome =>
    have hcmd : (probeOf listed).commandID = none := readState_command listed ▸ hcmd
    refine ⟨hsome id, hj.seen.issue id, ?_, fun h => ?_, fun id' h => ?_⟩
    · refine ⟨hj.follows.kept, hj.follows.revision, hj.follows.reset, fun heq b hb => ?_⟩
      have hlast := hj.follows.last heq (by rintro rfl; simp at hst) hcmd
      rw [hb] at hlast
      refine ⟨?_, hlast⟩
      rcases hst with rfl | rfl
      · obtain ⟨b', hb', -, hnone⟩ := hj.follows.round heq
        rw [hb] at hb'
        cases hb'
        exact hnone
      · exact (hj.follows.round heq b hb).1
    · cases h
    · cases h
      refine ⟨mem_cons_self, fun h => hid (hc.issued id h), fun h => hid (hj.seen.last id h)⟩

omit hc

/-- Results and resets since the list. -/
theorem Follows.suffix {earlier later : History J} (h : Follows listed (rowOf earlier) st)
    (hlater : ∀ x ∈ later, ∃ e, x = (none, some e) ∧ e.outside = true) :
    Follows listed (rowOf (earlier ++ later)) st := by
  induction later generalizing earlier with
  | nil => simpa using h
  | cons x rest ih =>
    obtain ⟨e, rfl, he⟩ := hlater x mem_cons_self
    have hrest : Follows listed (rowOf ((earlier ++ [(none, some e)]) ++ rest)) st :=
      ih (by simpa using h.outside he) fun y hy => hlater y (mem_cons_of_mem _ hy)
    simpa using hrest

/-- A row follows itself. -/
theorem Follows.start (h : Listed issued log listed) : Follows listed listed (startStage listed) := by
  refine ⟨id, Nat.le_refl _, fun hlt => absurd hlt (Nat.lt_irrefl _), fun _ => ?_⟩
  unfold startStage
  split
  · rename_i hround
    cases listed with
    | none => cases hround.1
    | some a => exact ⟨a, a, rfl, rfl, hround, .inl rfl⟩
  · rename_i hround
    intro b hb
    subst hb
    exact ⟨Decidable.not_not.mp fun hne => hround (h.waiting hne), hround, fun _ => rfl⟩

/-- A job that goes on in its stage. -/
theorem JobInv.goOn (hj : JobInv issued log listed st work) {work' : Eval}
    (hallowed : Allowed (readState listed) st work') : JobInv issued log listed st work' :=
  ⟨hallowed, hj.seen, hj.follows, hj.unfolded, hj.opening⟩

end Channel

end ControlTower.Tuning
