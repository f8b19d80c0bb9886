import ControlTower.Dispatch.ZeroWrite

/-! Unbroken runs keep the zero write of every circuit.

Each part of a job is followed through its calls: what the row shows after each of
them, and where the part may be cut off. Only an opening leaves the row for a moment
without what its circuit rests on; there the run has to go on. -/
namespace ControlTower.Dispatch
open Go Tuning Data List Setting

/-! ### What one call does to the books -/

namespace Books

/-- The row shows a state that was put. -/
structure Shows (b : Books) (v : State) : Prop where
  standing : standing (readState b.row) = standing v
  revision : revisionOf b.row = v.controlRevision
  held : heldBy b.row = decide (v.pausedReason = .manualDisabled)
  stored : b.row.isSome = true

/-- Nothing changed but the columns of the probe. -/
structure Alike (b b' : Books) : Prop where
  made : b'.made = b.made
  standing : Dispatch.standing (readState b'.row) = Dispatch.standing (readState b.row)
  revision : revisionOf b'.row = revisionOf b.row
  held : heldBy b'.row = heldBy b.row
  stored : b'.row.isSome = b.row.isSome

variable {b b' b'' : Books} {v : State} {c : Change}

theorem Alike.refl (b : Books) : b.Alike b := ⟨rfl, rfl, rfl, rfl, rfl⟩

theorem Alike.trans (h : b.Alike b') (h' : b'.Alike b'') : b.Alike b'' :=
  ⟨h'.made.trans h.made, h'.standing.trans h.standing, h'.revision.trans h.revision, h'.held.trans h.held,
    h'.stored.trans h.stored⟩

theorem Alike.backed (h : b.Alike b') (hb : b.Backed) : b'.Backed := by
  unfold Backed Held
  rw [h.standing, h.made]
  exact hb

theorem Alike.shows (h : b.Alike b') (hb : b.Shows v) : b'.Shows v :=
  ⟨h.standing.trans hb.standing, h.revision.trans hb.revision, h.held.trans hb.held, h.stored.trans hb.stored⟩

theorem Shows.backed (h : b.Shows v) (hv : Held v b.made) : b.Backed := hv.of_eq h.standing

theorem alike_apply (b : Books) {e : StoreEvent} (h : e.reports = true) : b.Alike (b.apply e) := by
  cases e with
  | recordProbeResult command attempts successes slowStreak duration now =>
    obtain ⟨_ | r, made⟩ := b
    · simp only [apply, StoreEvent.apply, recordProbeResult]
      split_ifs <;> exact ⟨rfl, rfl, rfl, rfl, rfl⟩
    · simp only [apply, StoreEvent.apply, recordProbeResult, Option.map_some]
      split_ifs <;> exact ⟨rfl, rfl, rfl, rfl, rfl⟩
  | _ => cases h

theorem alike_events (b : Books) {events : List StoreEvent} (h : ∀ e ∈ events, e.reports = true) :
    b.Alike (events.foldl apply b) :=
  events.foldlRecOn apply (Alike.refl b) fun _ hb e he => hb.trans (alike_apply _ (h e he))

/-- A put is accepted, or leaves everything as it was. -/
theorem serve_put (b : Books) (v : State) (answer : Option WriteErr) :
    (b.serve (.put v) answer).2.made = b.made ∧
      (answer = none ∧ (b.serve (.put v) answer).1 = none ∧ (b.serve (.put v) answer).2.Shows v ∨
        (answer = none → revisionOf b.row ≠ v.controlRevision) ∧
          ∃ e, b.serve (.put v) answer = (some e, b)) := by
  refine ⟨rfl, ?_⟩
  cases answer with
  | some e => exact .inr ⟨fun h => (nomatch h), e, rfl⟩
  | none =>
    by_cases hrevision : revisionOf b.row = v.controlRevision
    · refine .inl ⟨rfl, ?_⟩
      simp only [serve, Dispatch.serve, putContinuousState, hrevision, ne_eq, not_true_eq_false, if_false]
      exact ⟨trivial, rfl, rfl, rfl, rfl⟩
    · refine .inr ⟨fun _ => hrevision, .superseded, ?_⟩
      simp [serve, Dispatch.serve, putContinuousState, hrevision, entered]

/-- The books after the creation of a command. -/
def marked (b : Books) (c : Change) (id : String) : Books := ⟨b.row.map (c.mark id), (id, c) :: b.made⟩

theorem map_mark_empty (c : Change) (row : Store) : row.map (c.mark "") = row := by
  cases row <;> rfl

/-- A command is refused, or created and entered. -/
theorem serve_change (b : Books) (c : Change) (answer : Created) :
    (∃ e, b.serve (.change c) answer = (.refused e, b)) ∨
      ∃ id clock queued, b.serve (.change c) answer = (.made id clock queued, b.marked c id) := by
  cases answer with
  | refused e => exact .inl ⟨e, rfl⟩
  | made id clock queued =>
    simp only [serve, Dispatch.serve, Change.create]
    split
    · exact .inl ⟨_, rfl⟩
    · split_ifs
      · exact .inr ⟨_, _, _, rfl⟩
      · exact .inl ⟨_, rfl⟩
      · refine .inr ⟨"", clock, queued, ?_⟩
        simp [marked, map_mark_empty, entered]

/-- Nothing stands in the way of an opening that was just persisted. -/
theorem Shows.serve_opening (h : b.Shows v) (hfree : v.pausedReason ≠ .manualDisabled) (hrule : c.rule = .circuitOpened)
    (hrevision : c.revision = v.controlRevision) (id : String) (clock : Time) (queued : Bool) :
    b.serve (.change c) (.made id clock queued) = (.made id clock queued, b.marked c id) := by
  obtain ⟨_ | r, made⟩ := b
  · cases h.stored
  · have hheld : r.pausedReason ≠ .manualDisabled := by
      have := h.held
      simpa [heldBy, hfree] using this
    have hsame : r.controlRevision = c.revision := h.revision.trans hrevision.symm
    have hcheck : checkManualChannelControl (some r) false c.revision = .ok () := by
      simp [checkManualChannelControl, hheld, hsame]
    have hlinks : c.links (some r) = true := by simp [Change.links, hrule]
    simp [serve, Dispatch.serve, Change.create, hcheck, hlinks, entered, marked]

/-- A weight that was linked. -/
theorem standing_marked (hstored : b.row.isSome = true) (hstatus : c.status = none) {id : String} (hid : id ≠ "") :
    Dispatch.standing (readState (b.marked c id).row) =
      {Dispatch.standing (readState b.row) with pending := id, pendingWeight := c.proposedWeight} := by
  obtain ⟨_ | r, made⟩ := b
  · cases hstored
  · simp [marked, Change.mark, hid, hstatus, Dispatch.standing, readState]

/-- A status command that the row already waits for. -/
theorem standing_marked_status {target : Int} (hstatus : c.status = some target)
    (htarget : (readState b.row).circuitStatusTarget = target) (id : String) :
    Dispatch.standing (readState (b.marked c id).row) = Dispatch.standing (readState b.row) := by
  obtain ⟨_ | r, made⟩ := b
  · rfl
  · have hrow : r.circuitStatusTarget = target := htarget
    simp only [marked, Option.map_some, Change.mark, hstatus]
    split_ifs
    · rfl
    · simp [Dispatch.standing, readState, hrow]
    · rfl

end Books

/-! ### The turns -/

variable {turns rest : List Turn}

theorem Calm.suffix (h : Calm turns) (hrest : rest <:+ turns) : Calm rest :=
  fun turn hturn => h turn (hrest.subset hturn)

theorem Followed.suffix (h : Followed turns) (hrest : rest <:+ turns) :
    Followed rest := by
  induction turns with
  | nil =>
    rw [suffix_nil.mp hrest]
    exact h
  | cons turn turns ih =>
    rcases suffix_cons_iff.mp hrest with rfl | hrest
    · exact h
    · exact ih h.2 hrest

/-- The turns of a run that does not open the circuit, or goes on after its puts. -/
def Carried (shut : Prop) (turns : List Turn) : Prop := shut ∨ Followed turns

theorem Carried.suffix {shut : Prop} (h : Carried shut turns) (hrest : rest <:+ turns) :
    Carried shut rest :=
  h.imp_right (·.suffix hrest)

/-! ### Parts of a job -/

/-- Where a run of `job` from `b` may end; it is cut off only where the circuit has
what it rests on. In a run that leaves the circuit `shut` no opening is asked for. -/
abbrev Ends {R : Type} (shut : Prop) (job : Job R) (post : R → Books → List Turn → Prop) (b : Books)
    (turns : List Turn) : Prop :=
  job.Ensures Books.apply Books.serve (fun q => shut ∧ ∃ c, q = .change c ∧ c.rule = .circuitOpened) post
    Books.Backed b turns

abbrev Done {R : Type} : R → Books → List Turn → Prop := fun _ b _ => b.Backed

/-- A state that may be persisted, on books that may be left as they are. -/
structure Ready (b : Books) (s : State) (turns : List Turn) : Prop where
  calm : Calm turns
  backed : b.Backed
  held : Held s b.made

/-- The next call is a put that the store accepts. -/
structure Sure (b : Books) (s : State) (turns : List Turn) : Prop where
  revision : revisionOf b.row = s.controlRevision
  accepted : ∃ last ending, turns = last :: ending ∧ Accepts last

variable {shut : Prop}

section Parts
variable {R : Type} {post : R → Books → List Turn → Prop} {b : Books} {turns : List Turn}
  {t : Setting} {s : State}

theorem ends_ask {q : Request} {k : Answer q → Job R} (hcalm : Calm turns) (hcut : turns = [] → b.Backed)
    (hk : ∀ turn rest b', turns = turn :: rest → b.Alike b' →
      Ends shut (k (b'.serve q (turn.answer q)).1) post (b'.serve q (turn.answer q)).2 rest) :
    Ends shut (Dialogue.request q >>= k) post b turns := by
  cases turns with
  | nil => exact .inr (hcut rfl)
  | cons turn rest =>
    exact .inr (hk turn rest _ rfl (b.alike_events (hcalm turn mem_cons_self)))

/-- A call that only reads. -/
theorem ends_read {q : Request} {k : Answer q → Job R} (hcalm : Calm turns) (hb : b.Backed)
    (hq : ∀ b answer, Books.serve b q answer = (answer, b))
    (hk : ∀ answer b' rest, b.Alike b' → rest <:+ turns → Ends shut (k answer) post b' rest) :
    Ends shut (Dialogue.request q >>= k) post b turns := by
  refine ends_ask hcalm (fun _ => hb) fun turn rest b' hturns hb' => ?_
  rw [hq]
  exact hk _ b' rest hb' (hturns ▸ suffix_cons turn rest)

/-- A put is accepted and shown by the row, or changes nothing. -/
theorem ends_put {v : State} {k : Option WriteErr → Job R} (hcalm : Calm turns) (hcut : turns = [] → b.Backed)
    (haccepted : ∀ turn rest b', turns = turn :: rest → turn.answer (.put v) = none → b'.Shows v →
      b'.made = b.made → Ends shut (k none) post b' rest)
    (hrefused : ∀ turn rest b' e, turns = turn :: rest → b.Alike b' →
      (turn.answer (.put v) = none → revisionOf b.row ≠ v.controlRevision) → Ends shut (k (some e)) post b' rest) :
    Ends shut (put v >>= k) post b turns := by
  refine ends_ask hcalm hcut fun turn rest b' hturns hb' => ?_
  obtain ⟨hmade, ⟨hanswer, hnone, hshows⟩ | ⟨hreason, e, heq⟩⟩ := b'.serve_put v (turn.answer (.put v))
  · rw [hnone]
    exact haccepted turn rest _ hturns hanswer hshows (hmade.trans hb'.made)
  · rw [heq]
    exact hrefused turn rest b' e hturns hb' fun hanswer => hb'.revision ▸ hreason hanswer

variable {c : Change}

/-- A command is refused, or created and marked. -/
theorem ends_change {k : Created → Job R} (hcalm : Calm turns) (hcut : turns = [] → b.Backed)
    (hrefused : ∀ b' rest e, b.Alike b' → rest <:+ turns → Ends shut (k (.refused e)) post b' rest)
    (hmade : ∀ b' rest id clock queued, b.Alike b' → rest <:+ turns →
      Ends shut (k (.made id clock queued)) post (b'.marked c id) rest) :
    Ends shut (change c >>= k) post b turns := by
  refine ends_ask hcalm hcut fun turn rest b' hturns hb' => ?_
  have hrest : rest <:+ turns := hturns ▸ suffix_cons turn rest
  rcases b'.serve_change c (turn.answer (.change c)) with ⟨e, heq⟩ | ⟨id, clock, queued, heq⟩
  · rw [heq]
    exact hrefused b' rest e hb' hrest
  · rw [heq]
    exact hmade b' rest id clock queued hb' hrest

/-- No opening is asked for. -/
theorem ends_shut {k : Created → Job R} (hshut : shut) (hrule : c.rule = .circuitOpened) :
    Ends shut (change c >>= k) post b turns := by
  cases turns <;> exact .inl ⟨hshut, c, rfl, hrule⟩

theorem ends_persist (hcalm : Calm turns) (hs : Held s b.made) (hb : b.Backed ∨ Sure b s turns) :
    Ends shut (t.persist s) Done b turns := by
  refine ends_put hcalm (fun hnil => ?_) (fun turn rest b' hturns hanswer hshows hmade => ?_)
    fun turn rest b' e hturns hb' hrefused => ?_
  · rcases hb with hb | hsure
    · exact hb
    · obtain ⟨last, ending, hcons, -⟩ := hsure.accepted
      cases hnil.symm.trans hcons
  · refine hshows.backed ?_
    rw [hmade]
    exact hs.of_eq rfl
  · rcases hb with hb | hsure
    · exact hb'.backed hb
    · obtain ⟨last, ending, hcons, haccepts⟩ := hsure.accepted
      obtain ⟨rfl, rfl⟩ := List.cons.inj (hturns.symm.trans hcons)
      exact absurd hsure.revision (hrefused (haccepts _))

theorem Ready.ends_persist (h : Ready b s turns) : Ends shut (t.persist s) Done b turns :=
  Dispatch.ends_persist h.calm h.held (.inl h.backed)

/-- What a part that settles a write leaves. -/
structure Settles (b : Books) (s : State) (turns : List Turn) (s' : State) (b' : Books) (rest : List Turn) :
    Prop where
  ready : Ready b' s' rest
  alike : b.Alike b'
  suffix : rest <:+ turns
  idle : s.rest.capacity.pendingCommandID = "" → s' = s
  target : s.circuitStatusTarget = 0 → s'.circuitStatusTarget = 0

theorem ends_settleCapacityWrite (h : Ready b s turns) :
    Ends shut (t.settleCapacityWrite s) (Settles b s turns) b turns := by
  unfold settleCapacityWrite
  split_ifs with hpending
  · exact ⟨h, .refl b, suffix_rfl, fun _ => rfl, fun htarget => htarget⟩
  · refine ends_read h.calm h.backed (fun _ _ => rfl) fun answer b' rest hb' hrest => ?_
    refine ⟨⟨h.calm.suffix hrest, hb'.backed h.backed, ?_⟩, hb', hrest, fun hempty => absurd hempty hpending,
      fun htarget => settled_target htarget answer⟩
    rw [hb'.made]
    exact h.held.settled hpending answer

/-! ### Tracked writes -/

/-- The state that was put waits for its command, as the row does. -/
theorem Books.Shows.ready_marked {v : State} {id : String} (h : b.Shows v) (hcalm : Calm turns)
    (hstatus : c.status = none) (hid : id ≠ "")
    (hheld : ({Dispatch.standing v with pending := id, pendingWeight := c.proposedWeight} : Standing).Held
      ((id, c) :: b.made)) :
    Ready (b.marked c id) (awaitWrite v id c.proposedWeight) turns := by
  refine ⟨hcalm, ?_, hheld⟩
  unfold Books.Backed Held
  rw [Books.standing_marked h.stored hstatus hid, h.standing]
  exact hheld

/-- What a weight is written for: a channel that serves, or one that starts softly
after its zero write was confirmed. -/
def Writable (s : Standing) (rule : Rule) (made : List (String × Change)) : Prop :=
  s.Serves ∨ rule = .circuitRecovered ∧ s.phase = .softStart ∧ s.disabled = false ∧ s.target = 0 ∧
    s.latched = false ∧ s.Confirmed made

variable {rule : Rule}

theorem Writable.held {s : Standing} {made : List (String × Change)} (h : Writable s rule made) :
    s.Held made := by
  rcases h with hserves | ⟨-, hphase, hdisabled, htarget, hlatched, hconfirmed⟩
  · exact hserves.held made
  · have hclosed : ¬s.Open := by simp [Standing.Open, hphase]
    exact ⟨fun _ _ hopen => absurd hopen hclosed, fun _ _ hopen => absurd hopen hclosed, fun _ _ _ => hconfirmed,
      fun hawaited => by simp [hdisabled, htarget] at hawaited, fun _ hne => absurd htarget hne, hlatched⟩

/-- The command of the write itself does not matter, nor does its link. -/
theorem Writable.made {s : Standing} {made : List (String × Change)} (h : Writable s rule made) (hrule : c.rule = rule) (id pending : String) (weight : Int) :
    Writable {s with pending := pending, pendingWeight := weight} rule ((id, c) :: made) := by
  rcases h with hserves | ⟨hrecovered, hphase, hdisabled, htarget, hlatched, hwritten, hat, opening, hlast⟩
  · exact .inl ⟨hserves.phase, hserves.disabled, hserves.target, hserves.unlatched⟩
  · refine .inr ⟨hrecovered, hphase, hdisabled, htarget, hlatched, hwritten, hat, opening, ?_⟩
    simpa [lastOpening, hrule, hrecovered] using hlast

/-- A write that is confirmed at once. -/
theorem Writable.confirmed {made : List (String × Change)} (h : Writable (standing s) rule made)
    (silentMinutes weight : Int) (clock : Time) :
    Held (noteWriteSuccess (confirmCapacityWrite silentMinutes (awaitWrite s "" weight) weight clock)) made := by
  rcases h with hserves | ⟨-, hphase, hdisabled, htarget, hlatched, -⟩
  · refine Serves.held ?_ made
    exact ⟨hserves.phase, hserves.disabled, hserves.target, hserves.unlatched⟩
  · refine ⟨fun _ _ hopen => ?_, fun _ hne => absurd rfl hne, fun _ hne => absurd rfl hne, fun hawaited => ?_,
      fun _ hne => absurd htarget hne, hlatched⟩
    · rcases hopen with hopen | hopen <;> cases hphase.symm.trans hopen
    · rcases hawaited with hdisabled' | hne
      · cases hdisabled.symm.trans hdisabled'
      · exact absurd htarget hne

/-- What a tracked write leaves: a state to go on with, or the one it started from. -/
structure Written (b : Books) (s : State) (turns : List Turn) (r : Option WriteErr × State) (b' : Books)
    (rest : List Turn) : Prop where
  calm : Calm rest
  backed : b'.Backed
  suffix : rest <:+ turns
  made : r.1 = none → Held r.2 b'.made
  failed : r.1 ≠ none → standing r.2 = standing s ∧ b'.made = b.made

theorem ends_createTrackedWeightChange (hcalm : Calm turns) (hb : b.Backed)
    (hs : Writable (standing s) rule b.made) :
    Ends shut (t.createTrackedWeightChange s rule) (Written b s turns) b turns := by
  have htracked : standing (t.tracked s) = standing s := standing_tracked
  unfold createTrackedWeightChange
  split_ifs
  · exact ⟨hcalm, hb, suffix_rfl, fun hnone => (nomatch hnone), fun _ => ⟨rfl, rfl⟩⟩
  refine ends_put hcalm (fun _ => hb) (fun turn rest b₁ hturns _ hshows hmade => ?_)
    fun turn rest b₁ e hturns hb₁ _ => ?_
  swap
  · have hrest : rest <:+ turns := hturns ▸ suffix_cons turn rest
    exact ⟨hcalm.suffix hrest, hb₁.backed hb, hrest, fun hnone => (nomatch hnone), fun _ => ⟨htracked, hb₁.made⟩⟩
  have hrest : rest <:+ turns := hturns ▸ suffix_cons turn rest
  have hbacked₁ : b₁.Backed := by
    refine hshows.backed ?_
    rw [hmade]
    exact Held.of_eq hs.held htracked
  refine ends_change (hcalm.suffix hrest) (fun _ => hbacked₁) (fun b₂ rest' e hb₂ hrest' => ?_)
    fun b₂ rest' id clock queued hb₂ hrest' => ?_
  · exact ⟨hcalm.suffix (hrest'.trans hrest), hb₂.backed hbacked₁, hrest'.trans hrest, fun hnone => (nomatch hnone),
      fun _ => ⟨htracked, hb₂.made.trans hmade⟩⟩
  have hcalm' := hcalm.suffix (hrest'.trans hrest)
  have hshows₂ := hb₂.shows hshows
  dsimp only
  -- Linked or not, the row still shows a channel that a weight may be written for.
  have hwritable (pending : String) (weight : Int) :
      Writable {standing (t.tracked s) with pending := pending, pendingWeight := weight} rule
        ((id, trackedChange (t.tracked s) rule) :: b₂.made) := by
    rw [htracked, hb₂.made, hmade]
    exact hs.made rfl id pending weight
  split_ifs with hid
  · subst hid
    have hplain := hwritable (standing (t.tracked s)).pending (standing (t.tracked s)).pendingWeight
    refine ⟨hcalm', ?_, hrest'.trans hrest, fun _ => hplain.confirmed _ _ _, fun hne => absurd rfl hne⟩
    refine Held.of_eq (s := t.tracked s) hplain.held ?_
    simp only [Books.marked, Books.map_mark_empty]
    exact hshows₂.standing
  · have hready := hshows₂.ready_marked (c := trackedChange (t.tracked s) rule) hcalm' rfl hid
      (hwritable id _).held
    refine (ends_settleCapacityWrite hready).bind fun s' b' rest'' hsettles => ?_
    exact ⟨hsettles.ready.calm, hsettles.ready.backed, hsettles.suffix.trans (hrest'.trans hrest),
      fun _ => hsettles.ready.held, fun hne => absurd rfl hne⟩

/-! ### Openings -/

/-- A circuit that is being opened. -/
structure Opening (s : Standing) : Prop where
  phase : s.phase = .circuit
  disabled : s.disabled = false
  target : s.target = 0
  unlatched : s.latched = false

theorem Opening.held {s : Standing} (h : Opening s) {made : List (String × Change)}
    (hconfirmed : s.pending = "" → s.Confirmed made)
    (hpending : s.pending ≠ "" → s.pendingWeight = 0 ∧ lastOpening made = some s.pending) : s.Held made where
  confirmed _ hempty _ := hconfirmed hempty
  pending _ hne _ := ⟨h.phase, hpending hne⟩
  softStart _ _ hsoft := by cases h.phase.symm.trans hsoft
  awaited hawaited := by simp [h.disabled, h.target] at hawaited
  enabling _ hne := absurd h.target hne
  unlatched := h.unlatched

theorem writeAttemptAllowed_free {p : Params} {now : Time} (h : p.writeAttemptAllowed s now = true) :
    s.pausedReason ≠ .manualDisabled := by
  intro hheld
  simp [Params.writeAttemptAllowed, hheld] at h

/-- What the write of an opening leaves: where no command is recorded, the put that
follows is accepted. -/
structure Opened (s : State) (r : Option WriteErr × State) (b' : Books) (rest : List Turn) : Prop where
  calm : Calm rest
  backed : b'.Backed ∨ Sure b' r.2 rest
  made : r.1 = none → Held r.2 b'.made
  failed : r.1 ≠ none → standing r.2 = standing s

theorem tracked_kept (t : Setting) (s : State) :
    (t.tracked s).pausedReason = s.pausedReason ∧ (t.tracked s).rest.proposedWeight = s.rest.proposedWeight := by
  unfold tracked trackWrites
  dsimp only
  split_ifs <;> exact ⟨rfl, rfl⟩

theorem ends_createTrackedWeightChange_opening (hcalm : Calm turns) (hcarried : Carried shut turns) (hb : b.Backed)
    (hs : Opening (standing s)) (hzero : s.rest.proposedWeight = 0) :
    Ends shut (t.createTrackedWeightChange s .circuitOpened) (Opened s) b turns := by
  have htracked : standing (t.tracked s) = standing s := standing_tracked
  obtain ⟨hpaused, hweight⟩ := tracked_kept t s
  have hlast (id : String) (made : List (String × Change)) :
      lastOpening ((id, trackedChange (t.tracked s) .circuitOpened) :: made) = some id := by
    simp [lastOpening, trackedChange, hweight, hzero]
  unfold createTrackedWeightChange
  split_ifs with hallowed
  · exact ⟨hcalm, .inl hb, (fun hnone => by cases hnone), fun _ => rfl⟩
  have hfree : (t.tracked s).pausedReason ≠ .manualDisabled := by
    rw [hpaused]
    exact writeAttemptAllowed_free (by simpa using hallowed)
  refine ends_put hcalm (fun _ => hb) (fun turn rest b₁ hturns hanswer hshows hmade => ?_)
    fun turn rest b₁ e hturns hb₁ _ => ?_
  swap
  · exact ⟨hcalm.suffix (hturns ▸ suffix_cons turn rest), .inl (hb₁.backed hb), (fun hnone => by cases hnone),
      fun _ => htracked⟩
  subst hturns
  -- The opening is persisted: from here on the run has to go on.
  rcases hcarried with hshut | hfollowed
  · exact ends_shut hshut rfl
  obtain ⟨next, after, rfl, hnext⟩ := hfollowed.1 ⟨_, hanswer⟩
  have hcalm' : Calm after := hcalm.suffix ((suffix_cons next after).trans (suffix_cons turn _))
  have hsure (hnot : ¬Creates next) {b₂ : Books} (hb₂ : b₁.Alike b₂) (v : State)
      (hv : v.controlRevision = (t.tracked s).controlRevision) : Sure b₂ v after :=
    ⟨(hb₂.revision.trans hshows.revision).trans hv.symm, hnext.resolve_left hnot⟩
  refine ends_ask (hcalm.suffix (suffix_cons turn _)) (fun hnil => by cases hnil)
    fun turn' rest' b₂ hturns hb₂ => ?_
  obtain ⟨rfl, rfl⟩ := List.cons.inj hturns
  have hshows₂ := hb₂.shows hshows
  cases hchange : next.answer (.change (trackedChange (t.tracked s) .circuitOpened)) with
  | refused e =>
    have hnot : ¬Creates next := by
      intro hcreates
      obtain ⟨id, clock, queued, -, hmade⟩ := hcreates (trackedChange (t.tracked s) .circuitOpened)
      cases hchange.symm.trans hmade
    exact ⟨hcalm', .inr (hsure hnot hb₂ _ rfl), (fun hnone => by cases hnone), fun _ => htracked⟩
  | made id clock queued =>
    rw [hshows₂.serve_opening hfree rfl rfl id clock queued]
    dsimp only
    have hopening : Opening (standing (t.tracked s)) := htracked ▸ hs
    split_ifs with hid
    · subst hid
      have hnot : ¬Creates next := by
        intro hcreates
        obtain ⟨id, clock', queued', hne, hmade⟩ := hcreates (trackedChange (t.tracked s) .circuitOpened)
        cases hchange.symm.trans hmade
        exact hne rfl
      have hrow : (b₂.marked (trackedChange (t.tracked s) .circuitOpened) "").row = b₂.row := by
        simp only [Books.marked, Books.map_mark_empty]
      refine ⟨hcalm', .inr ?_, fun _ => ?_, fun hne => absurd rfl hne⟩
      · obtain ⟨hrevision, haccepted⟩ := hsure hnot hb₂ (t.tracked s) rfl
        exact ⟨(congrArg revisionOf hrow).trans hrevision, haccepted⟩
      · have hphase : (t.tracked s).rest.phase = .circuit := hopening.phase
        have hwritten : (t.tracked s).rest.proposedWeight = 0 := hweight.trans hzero
        refine Opening.held ?_ (fun _ => ?_) fun hne => absurd rfl hne
        · exact ⟨hphase, hopening.disabled, hopening.target, hopening.unlatched⟩
        exact ⟨congrArg some hwritten,
          by simp [standing, noteWriteSuccess, confirmCapacityWrite, awaitWrite, hphase, hwritten], _, hlast _ _⟩
    · have hheld : ({standing (t.tracked s) with
          pending := id, pendingWeight := (t.tracked s).rest.proposedWeight} : Standing).Held
            ((id, trackedChange (t.tracked s) .circuitOpened) :: b₂.made) := by
        refine Opening.held ?_ (fun hempty => absurd hempty hid) fun _ => ⟨hweight.trans hzero, hlast id _⟩
        exact ⟨hopening.phase, hopening.disabled, hopening.target, hopening.unlatched⟩
      have hready := hshows₂.ready_marked (c := trackedChange (t.tracked s) .circuitOpened) hcalm' rfl hid hheld
      refine (ends_settleCapacityWrite hready).bind fun s' b' rest'' hsettles => ?_
      exact ⟨hsettles.ready.calm, .inl hsettles.ready.backed, fun _ => hsettles.ready.held, fun hne => absurd rfl hne⟩

/-- The opening is written and persisted, or taken back. -/
theorem ends_opened (undo : WriteErr → State → State) (hcalm : Calm turns) (hcarried : Carried shut turns)
    (hb : b.Backed) (hs : Opening (standing s)) (hzero : s.rest.proposedWeight = 0)
    (hundo : ∀ e s', Opening (standing s') → Serves (undo e s') ∧
      (undo e s').controlRevision = s'.controlRevision)
    {k : Option WriteErr × State → Job Unit} (hmade : ∀ s', k (none, s') = t.persist s')
    (hfailed : ∀ e s', k (some e, s') = t.persist (undo e s')) :
    Ends shut (t.createTrackedWeightChange s .circuitOpened >>= k) Done b turns := by
  refine (ends_createTrackedWeightChange_opening hcalm hcarried hb hs hzero).bind fun r b' rest h => ?_
  obtain ⟨_ | e, s'⟩ := r
  · rw [hmade]
    exact ends_persist h.calm (h.made rfl) h.backed
  · have hopening : Opening (standing s') := (h.failed (by simp)) ▸ hs
    obtain ⟨hserves, hrevision⟩ := hundo e s' hopening
    rw [hfailed]
    refine ends_persist h.calm (hserves.held _) (h.backed.imp_right fun hsure => ?_)
    exact ⟨hsure.revision.trans hrevision.symm, hsure.accepted⟩

/-! ### Status commands -/

/-- A status command is awaited, and the row shows it. -/
structure Awaits (b : Books) (s : State) (turns : List Turn) : Prop where
  ready : Ready b s turns
  shown : standing (readState b.row) = standing s
  awaited : s.circuitDisabled = true ∨ s.circuitStatusTarget = 1

abbrev ReadyAfter : State → Books → List Turn → Prop := fun s b turns => Ready b s turns

theorem ends_awaitCircuitStatus (h : Awaits b s turns) :
    Ends shut (t.awaitCircuitStatus s s.circuitStatusTarget) ReadyAfter b turns := by
  refine ends_read h.ready.calm h.ready.backed (fun _ _ => rfl) fun answer b' rest hb' hrest => ?_
  have hheld : Held s b'.made := hb'.made ▸ h.ready.held
  have hready (s' : State) (hs' : Held s' b'.made) : Ready b' s' rest :=
    ⟨h.ready.calm.suffix hrest, hb'.backed h.ready.backed, hs'⟩
  have hcleared : Held {s with rest := {s.rest with circuitStatusCommandID := ""}} b'.made := hheld.of_eq rfl
  rcases answer with _ | (_ | _ | _ | _ | _)
  · exact hready s hheld
  · exact hready s hheld
  · exact hready s hheld
  · exact hready _ (hheld.statusApplied h.awaited rfl)
  · exact hready _ (hcleared.statusFailed h.awaited _ _)
  · exact hready _ (hcleared.statusFailed h.awaited _ _)

theorem ends_enqueueCircuitStatus (h : Awaits b s turns) :
    Ends shut (t.enqueueCircuitStatus s s.circuitStatusTarget) ReadyAfter b turns := by
  unfold enqueueCircuitStatus
  split_ifs
  · exact ends_awaitCircuitStatus h
  · exact h.ready
  · exact h.ready
  refine ends_change h.ready.calm (fun _ => h.ready.backed) (fun b' rest e hb' hrest => ?_)
    fun b' rest id clock queued hb' hrest => ?_
  · have hheld : Held s b'.made := hb'.made ▸ h.ready.held
    exact ⟨h.ready.calm.suffix hrest, hb'.backed h.ready.backed, hheld.statusFailed h.awaited _ _⟩
  · have hrule : (t.statusChange s s.circuitStatusTarget).rule = .circuitRecovered ∨ s.circuitDisabled = true := by
      rcases h.awaited with hdisabled | hone
      · exact .inr hdisabled
      · exact .inl (by simp [statusChange, hone])
    have hheld : Held s (b'.marked (t.statusChange s s.circuitStatusTarget) id).made := by
      refine Held.entered ?_ hrule
      rw [hb'.made]
      exact h.ready.held
    have hshown : standing (readState b'.row) = standing s := hb'.standing.trans h.shown
    have hmarked : standing (readState (b'.marked (t.statusChange s s.circuitStatusTarget) id).row) = standing s :=
      (Books.standing_marked_status rfl (congrArg Standing.target hshown) id).trans hshown
    have hready : Ready (b'.marked (t.statusChange s s.circuitStatusTarget) id) s rest :=
      ⟨h.ready.calm.suffix hrest, hheld.of_eq hmarked, hheld⟩
    dsimp only
    split_ifs
    · exact ⟨hready.calm, hready.backed, hheld.statusApplied h.awaited rfl⟩
    · exact ends_awaitCircuitStatus (s := {s with rest := {s.rest with circuitStatusCommandID := id}})
        ⟨⟨hready.calm, hready.backed, hheld.of_eq rfl⟩, hmarked, h.awaited⟩

theorem ends_advanceCircuitStatus (h : Awaits b s turns) :
    Ends shut (t.advanceCircuitStatus s) ReadyAfter b turns := by
  unfold advanceCircuitStatus
  split_ifs with hlegacy
  · have hdisabled : s.circuitDisabled = true := h.awaited.resolve_right (by omega)
    have hheld : Held {s with circuitStatusTarget := 2} b.made := by
      obtain ⟨hopen, hpending⟩ := h.ready.held.awaited (.inl hdisabled)
      have hnever : ¬s.circuitDisabled = false := by simp [hdisabled]
      exact Held.of_confirmed hopen hpending (fun he => absurd he hnever) (fun he => absurd he hnever)
        h.ready.held.unlatched
    refine ends_put h.ready.calm (fun _ => h.ready.backed) (fun turn rest b' hturns _ hshows hmade => ?_)
      fun turn rest b' e hturns hb' _ => ?_
    · have hheld' : Held {s with circuitStatusTarget := 2} b'.made := hmade ▸ hheld
      refine ends_enqueueCircuitStatus (s := {s with circuitStatusTarget := 2}) ⟨⟨?_, hshows.backed hheld', hheld'⟩, ?_, .inl hdisabled⟩
      · exact h.ready.calm.suffix (hturns ▸ suffix_cons turn rest)
      · exact hshows.standing
    · refine ⟨h.ready.calm.suffix (hturns ▸ suffix_cons turn rest), hb'.backed h.ready.backed, ?_⟩
      rw [hb'.made]
      exact hheld.of_eq (standing_noteWriteFailure e)
  · exact ends_enqueueCircuitStatus h

end Parts

/-! ### The evaluation -/

namespace Tick
variable {t : Tick} {b : Books} {s : State} {turns : List Turn}

theorem ends_writeWeight (hcalm : Calm turns) (hb : b.Backed) (hs : Serves s) :
    Ends shut (t.writeWeight s) Done b turns := by
  have hbounded : Serves (t.endIdleRetry (bounded s).1) := by
    refine hs.of_eq ?_
    unfold endIdleRetry bounded applyCapacityTarget
    dsimp only
    split_ifs <;> rfl
  simp only [writeWeight]
  split_ifs
  · refine (ends_createTrackedWeightChange hcalm hb (.inl hbounded)).bind fun r b' rest h => ?_
    obtain ⟨_ | (_ | _), s'⟩ := r
    · exact ends_persist h.calm (h.made rfl) (.inl h.backed)
    · have hserves : Serves s' := hbounded.of_eq (h.failed (by simp)).1
      exact ends_persist h.calm (hserves.held _) (.inl h.backed)
    · have hserves : Serves s' := hbounded.of_eq (h.failed (by simp)).1
      exact ends_persist h.calm ((hserves.of_eq rfl).held _) (.inl h.backed)
  · exact ends_persist hcalm (hbounded.held _) (.inl hb)

theorem ends_openCircuit (hauto : t.mode = .auto) (hcalm : Calm turns) (hcarried : Carried shut turns) (hb : b.Backed)
    (hs : Serves s) : Ends shut (t.openCircuit s) Done b turns := by
  have hopening : Opening (standing (t.opened s)) := ⟨rfl, hs.disabled, hs.target, hs.unlatched⟩
  simp only [openCircuit]
  rw [if_pos hauto]
  refine ends_opened (fun e s' => t.noteWriteFailure {unopened s' with
    rest := {(unopened s').rest with
      proposedWeight := t.params.recoveryWeight t.base.baseWeight t.factor}} e)
    hcalm hcarried hb hopening rfl (fun e s' h => ⟨?_, ?_⟩) (fun _ => rfl) fun _ _ => rfl
  · refine Serves.of_eq ?_ (standing_noteWriteFailure e)
    exact ⟨.inl rfl, h.disabled, h.target, h.unlatched⟩
  · cases e <;> rfl

theorem ends_evaluateServing (hauto : t.mode = .auto) (hcalm : Calm turns) (hcarried : Carried shut turns)
    (hb : b.Backed) (hs : Serves s) : Ends shut (t.evaluateServing s) Done b turns := by
  have hproposed {weight : Int} : Serves {s with rest := {s.rest with proposedWeight := weight}} := hs.of_eq rfl
  simp only [evaluateServing]
  split_ifs
  · exact ends_openCircuit hauto hcalm hcarried hb hproposed
  · exact ends_persist hcalm (hproposed.held _) (.inl hb)
  · exact ends_writeWeight hcalm hb hproposed
  · exact ends_writeWeight hcalm hb hproposed

/-- An open circuit that waits for no write keeps what it rests on. -/
theorem held_open {made : List (String × Change)} {s' : State} (h : Held s made)
    (hpending : s.rest.capacity.pendingCommandID = "") (hopen : (standing s).Open) {phase : CircuitPhase}
    (hphase : phase = .circuit ∨ phase = .probing) (heq : standing s' = {standing s with phase := phase}) :
    Held s' made := by
  have hheld : Standing.Held {standing s with phase := phase} made :=
    ⟨fun he hp _ => h.confirmed he hp hopen, fun _ hne => absurd hpending hne, fun _ hne => absurd hpending hne,
      fun _ => ⟨hphase, hpending⟩, h.enabling, h.unlatched⟩
  unfold Held
  rw [heq]
  exact hheld

theorem ends_evaluatePhase (hauto : t.mode = .auto) (h : Ready b s turns) (hidle : s.rest.phase = .normal ∨
      s.rest.capacity.pendingCommandID = "") (hcarried : Carried shut turns) :
    Ends shut (t.evaluatePhase s) Done b turns := by
  have hpending {phase : CircuitPhase} (hphase : s.rest.phase = phase) (hne : phase ≠ .normal) :
      s.rest.capacity.pendingCommandID = "" := hidle.resolve_left (hphase ▸ hne)
  unfold evaluatePhase
  split
  case h_1 hphase =>
    split_ifs
    · refine ends_read h.calm h.backed (fun _ _ => rfl) fun answer b' rest hb' hrest => ?_
      have hheld : Held s b'.made := hb'.made ▸ h.held
      have hcalm := h.calm.suffix hrest
      have hbacked := hb'.backed h.backed
      cases answer with
      | none => exact ends_persist hcalm (hheld.of_eq rfl) (.inl hbacked)
      | some id =>
        exact ends_persist hcalm (held_open hheld (hpending hphase (by simp)) (.inl hphase) (.inr rfl) rfl)
          (.inl hbacked)
    · exact h.ends_persist
  case h_2 hphase =>
    split_ifs
    · refine ends_persist h.calm ?_ (.inl h.backed)
      exact held_open h.held (hpending hphase (by simp)) (.inr hphase) (.inl rfl) rfl
    · exact h.ends_persist
  case h_3 hphase =>
    split_ifs
    · exact ends_persist h.calm (h.held.of_eq rfl) (.inl h.backed)
    · have hnot : ¬(s.circuitDisabled = true ∨ s.circuitStatusTarget ≠ 0) := by
        intro hawaited
        rcases (h.held.awaited hawaited).1 with hopen | hopen <;> cases hphase.symm.trans hopen
      refine ends_evaluateServing hauto h.calm hcarried h.backed ?_
      exact ⟨.inl rfl, Bool.eq_false_iff.mpr fun hd => hnot (.inl hd),
        Decidable.byContradiction fun htarget => hnot (.inr htarget), h.held.unlatched⟩
  case h_4 hphase =>
    exact ends_evaluateServing hauto h.calm hcarried h.backed (h.held.serves (.inl hphase))
  case h_5 hphase =>
    exact ends_evaluateServing hauto h.calm hcarried h.backed (h.held.serves (.inr hphase))

theorem evaluatePassive_auto (hauto : t.mode = .auto) (s : State) : t.evaluatePassive s = t.evaluatePhase s := by
  simp [evaluatePassive, hauto]

theorem ends_startCircuitStatus (h : Ready b s turns)
    (hawaited : s.circuitDisabled = true ∨ s.circuitStatusTarget = 1) :
    Ends shut (t.startCircuitStatus s) Done b turns := by
  refine ends_put h.calm (fun _ => h.backed) (fun turn rest b' hturns _ hshows hmade => ?_)
    fun turn rest b' e hturns hb' _ => ?_
  · have hcalm := h.calm.suffix (hturns ▸ suffix_cons turn rest)
    have hheld : Held s b'.made := hmade ▸ h.held
    have hawaits : Awaits b' s rest := ⟨⟨hcalm, hshows.backed hheld, hheld⟩, hshows.standing, hawaited⟩
    exact (ends_advanceCircuitStatus hawaits).bind fun s' b'' rest' hready => hready.ends_persist
  · exact ends_persist (h.calm.suffix (hturns ▸ suffix_cons turn rest)) (hb'.made ▸ h.held)
      (.inl (hb'.backed h.backed))

/-- A round that has ended, with nothing awaited. -/
structure Round (b : Books) (s : State) (turns : List Turn) : Prop where
  ready : Ready b s turns
  phase : s.rest.phase = .probing
  pending : s.rest.capacity.pendingCommandID = ""
  target : s.circuitStatusTarget = 0

theorem Round.ends_backToCircuit (hauto : t.mode = .auto) (h : Round b s turns) (hcarried : Carried shut turns)
    {s' : State} (heq : standing s' = {standing s with phase := .circuit}) : Ends shut (t.evaluatePassive s') Done b turns := by
  have hheld : Held s' b.made := held_open h.ready.held h.pending (.inr h.phase) (.inl rfl) heq
  have hpending : s'.rest.capacity.pendingCommandID = "" := (congrArg Standing.pending heq).trans h.pending
  rw [evaluatePassive_auto hauto]
  exact ends_evaluatePhase hauto ⟨h.ready.calm, h.ready.backed, hheld⟩ (.inr hpending) hcarried

theorem ends_recover (hauto : t.mode = .auto) (h : Round b s turns) (hcarried : Carried shut turns) :
    Ends shut (t.recover s) Done b turns := by
  simp only [recover]
  split_ifs with hblocked hdisabled
  · exact h.ready.ends_persist
  · refine ends_startCircuitStatus ⟨h.ready.calm, h.ready.backed, ?_⟩ (.inr rfl)
    exact Held.of_confirmed (.inr h.phase) h.pending
      (fun he => h.ready.held.confirmed he h.pending (.inr h.phase)) (fun _ _ => rfl) h.ready.held.unlatched
  · have henabled : s.circuitDisabled = false :=
      Bool.eq_false_iff.mpr fun hd => hdisabled ⟨hauto, .inl hd⟩
    have hconfirmed := h.ready.held.confirmed henabled h.pending (.inr h.phase)
    have hwritable : Writable (standing (t.softStarted s)) .circuitRecovered b.made :=
      .inr ⟨rfl, rfl, henabled, h.target, h.ready.held.unlatched, hconfirmed⟩
    refine (ends_createTrackedWeightChange h.ready.calm h.ready.backed hwritable).bind fun r b' rest hw => ?_
    obtain ⟨_ | e, s'⟩ := r
    · exact ends_persist hw.calm ((hw.made rfl).of_eq rfl) (.inl hw.backed)
    · obtain ⟨hstanding, hmade⟩ := hw.failed (by simp)
      have hround : Round b' s rest :=
        ⟨⟨hw.calm, hw.backed, hmade ▸ h.ready.held⟩, h.phase, h.pending, h.target⟩
      refine hround.ends_backToCircuit hauto (hcarried.suffix hw.suffix) ?_
      refine (standing_noteWriteFailure (t := t.toSetting) e).trans ?_
      have hcircuit : {standing s' with phase := .circuit} = {standing s with phase := .circuit} := by
        rw [hstanding]
        rfl
      exact hcircuit

theorem ends_foldRound (hauto : t.mode = .auto) (h : Round b s turns) (hcarried : Carried shut turns)
    (completeRound : Bool) :
    Ends shut (t.foldRound s completeRound) Done b turns := by
  unfold foldRound
  split_ifs
  · refine ends_startCircuitStatus ⟨h.ready.calm, h.ready.backed, ?_⟩ (.inl rfl)
    exact Held.of_confirmed (.inr h.phase) h.pending (fun he => (nomatch he)) (fun he => (nomatch he))
      h.ready.held.unlatched
  · exact ends_recover hauto h hcarried
  · exact h.ends_backToCircuit hauto hcarried rfl

theorem ends_evaluateRound (hauto : t.mode = .auto) (h : Ready b s turns) (htarget : s.circuitStatusTarget = 0)
    (hidle : s.rest.phase = .normal ∨ s.rest.capacity.pendingCommandID = "")
    (hcarried : Carried shut turns) : Ends shut (t.evaluateRound s) Done b turns := by
  unfold evaluateRound
  split_ifs with hround
  · have hpending : s.rest.capacity.pendingCommandID = "" := hidle.resolve_left (by simp [hround.1])
    refine ends_read h.calm h.backed (fun _ _ => rfl) fun answer b' rest hb' hrest => ?_
    have hround' : Round b' s rest :=
      ⟨⟨h.calm.suffix hrest, hb'.backed h.backed, hb'.made ▸ h.held⟩, hround.1, hpending, htarget⟩
    cases answer with
    | none => exact hround'.ready.backed
    | some expected => exact ends_foldRound hauto hround' (hcarried.suffix hrest) _
  · rw [evaluatePassive_auto hauto]
    exact ends_evaluatePhase hauto h hidle hcarried

theorem ends_evaluateTarget (h : Awaits b s turns) (htarget : s.circuitStatusTarget ≠ 0) :
    Ends shut (t.evaluateTarget s) Done b turns := by
  unfold evaluateTarget
  split_ifs
  · exact h.ready.ends_persist
  · exact ends_persist h.ready.calm (h.ready.held.resetFailedCircuitEnable (.inr htarget) _) (.inl h.ready.backed)
  · exact (ends_advanceCircuitStatus h).bind fun s' b' rest hready => hready.ends_persist

theorem ends_evaluateWeighted (hauto : t.mode = .auto) (h : Ready b s turns)
    (hshown : s.circuitStatusTarget ≠ 0 → standing (readState b.row) = standing s)
    (hcarried : Carried shut turns) : Ends shut (t.evaluateWeighted s) Done b turns := by
  unfold evaluateWeighted
  split_ifs with hretries hmode htarget hwindow hwaits hobserve
  · exact ends_persist h.calm h.held.finishFailedWrite (.inl h.backed)
  · exact h.backed
  · have hawaited : s.circuitDisabled = true ∨ s.circuitStatusTarget = 1 := by
      cases hd : s.circuitDisabled
      · exact .inr (h.held.enabling hd htarget)
      · exact .inl rfl
    exact ends_evaluateTarget ⟨h, hshown htarget, hawaited⟩ htarget
  · exact h.backed
  · exact h.ends_persist
  · exact absurd (hauto.symm.trans hobserve.2.1) (by simp)
  · have hidle : s.rest.phase = .normal ∨ s.rest.capacity.pendingCommandID = "" := by
      by_cases hphase : s.rest.phase = .normal
      · exact .inl hphase
      · exact .inr (Decidable.byContradiction fun hne => hwaits ⟨hne, hphase⟩)
    exact ends_evaluateRound hauto h (Decidable.byContradiction htarget) hidle hcarried

theorem ends_evaluateOwned (hauto : t.mode = .auto) (h : Ready b s turns)
    (hshown : s.circuitStatusTarget ≠ 0 → standing (readState b.row) = standing s)
    (hcarried : Carried shut turns)
    (hweight : 0 < t.base.baseWeight ∨ s.circuitStatusTarget = 0) : Ends shut (t.evaluateOwned s) Done b turns := by
  unfold evaluateOwned
  split_ifs with howned hmixed hempty
  · exact h.backed
  · exact ends_persist h.calm (h.held.of_eq rfl) (.inl h.backed)
  · have henabled : s.circuitDisabled = false := Bool.eq_false_iff.mpr fun hd => howned ⟨hd, .inl hempty⟩
    have htarget : s.circuitStatusTarget = 0 := hweight.resolve_left (Int.not_lt.mpr hempty)
    have hserves : Serves (unweighted (unmixed s)) := by
      simp only [unweighted]
      split_ifs
      · exact ⟨.inl rfl, henabled, htarget, h.held.unlatched⟩
      · exact ⟨.inl rfl, henabled, htarget, h.held.unlatched⟩
    exact ends_persist h.calm (hserves.held _) (.inl h.backed)
  · exact ends_evaluateWeighted hauto ⟨h.calm, h.backed, h.held.of_eq rfl⟩ hshown hcarried

/-- Where the capacity's part of an evaluation ends. -/
theorem ends_evaluateCapacity (h : Ready b s turns) :
    Ends shut (t.evaluateCapacity s) (fun s' b' rest => Ready b' s' rest ∧ b.Alike b' ∧ rest <:+ turns ∧
      (s.rest.capacity.pendingCommandID = "" → standing s' = standing s) ∧
      (s.circuitStatusTarget = 0 → s'.circuitStatusTarget = 0)) b turns := by
  have hready : Ready b (t.withRates s) turns := ⟨h.calm, h.backed, h.held.of_eq rfl⟩
  simp only [evaluateCapacity]
  split_ifs
  · refine (ends_settleCapacityWrite hready).bind fun s' b' rest hs => ?_
    have hupdated : standing (t.capacityUpdated s') = standing s' := standing_capacityUpdated t
    refine ⟨⟨hs.ready.calm, hs.ready.backed, hs.ready.held.of_eq hupdated⟩, hs.alike, hs.suffix, fun hempty => ?_,
      fun htarget => (congrArg Standing.target hupdated).trans (hs.target htarget)⟩
    rw [hupdated, hs.idle hempty]
    rfl
  · exact ⟨hready, .refl b, suffix_rfl, fun _ => rfl, fun htarget => htarget⟩

theorem standing_takenUp (h : s.rest.phase ≠ .blank) : standing (t.takenUp s) = standing s := by
  simp [takenUp, standing, h]

theorem held_takenUp {made : List (String × Change)} (h : Held s made) : Held (t.takenUp s) made := by
  by_cases hblank : s.rest.phase = .blank
  · have hserves := h.serves (.inr hblank)
    refine Serves.held ?_ made
    exact ⟨.inl (by simp [takenUp, standing, hblank]), hserves.disabled, hserves.target, hserves.unlatched⟩
  · exact h.of_eq (standing_takenUp hblank)

theorem ends_evaluate (hauto : t.mode = .auto) (hcalm : Calm turns) (hb : b.Backed)
    (hcarried : Carried shut turns)
    (hweight : 0 < t.base.baseWeight ∨ (readState b.row).circuitStatusTarget = 0) (known : Bool) :
    Ends shut (t.evaluate known (readState b.row)) Done b turns := by
  have hready : Ready b (t.takenUp (readState b.row)) turns := ⟨hcalm, hb, held_takenUp hb⟩
  have hnamed (hopen : (standing (readState b.row)).Open) :
      standing (t.takenUp (readState b.row)) = standing (readState b.row) := by
    refine standing_takenUp fun hblank => ?_
    rcases hopen with hopen | hopen <;> cases hblank.symm.trans hopen
  have hcapacity : Ends shut (some <$> t.evaluateCapacity (t.takenUp (readState b.row)))
      (fun r b' rest => b'.Backed ∧ ∀ s ∈ r, Ends shut (t.evaluateOwned s) Done b' rest) b turns := by
    refine (ends_evaluateCapacity hready).bind fun s' b' rest ⟨hready', halike, hrest, hkept, htarget⟩ => ?_
    refine ⟨hready'.backed, fun s hs => ?_⟩
    cases hs
    refine ends_evaluateOwned hauto hready' (fun hne => ?_) (hcarried.suffix hrest) (hweight.imp_right htarget)
    -- An awaited status command leaves the capacity's part nothing to settle.
    have hawaited : (standing (readState b.row)).disabled = true ∨ (standing (readState b.row)).target ≠ 0 :=
      .inr fun hzero => hne (htarget hzero)
    obtain ⟨hopen, hpending⟩ := hb.awaited hawaited
    exact halike.standing.trans ((hkept hpending).trans (hnamed hopen)).symm
  have hupdated : Ends shut (t.updateChannel known (readState b.row))
      (fun r b' rest => b'.Backed ∧ ∀ s ∈ r, Ends shut (t.evaluateOwned s) Done b' rest) b turns := by
    simp only [updateChannel]
    split_ifs with _ _ hmode
    · exact ⟨hb, fun s hs => (nomatch hs)⟩
    · exact ⟨hb, fun s hs => (nomatch hs)⟩
    · exact absurd hauto hmode.1
    · exact hcapacity
  refine hupdated.bind fun r b' rest hr => ?_
  cases r with
  | none => exact hr.1
  | some s => exact hr.2 s rfl

end Tick

variable {turns : List Turn} {b : Books}

theorem FastCircuit.ends_evaluate {t : FastCircuit} (hcalm : Calm turns)
    (hb : b.Backed) (hcarried : Carried shut turns) :
    Ends shut (t.evaluate (readState b.row)) Done b turns := by
  unfold FastCircuit.evaluate
  extract_lets columns named
  split_ifs with hskip
  · exact hb
  have hphase : named.rest.phase = .normal := Decidable.byContradiction fun hne => hskip (.inr (.inl hne))
  have hclosed : (readState b.row).rest.phase = .normal ∨ (readState b.row).rest.phase = .blank := by
    by_cases hblank : (readState b.row).rest.phase = .blank
    · exact .inr hblank
    · left
      rw [← hphase]
      simp [named, hblank]
  have hserves := Held.serves hb hclosed
  refine ends_opened (fun e s' => t.noteWriteFailure (unopened s') e) hcalm hcarried hb ?_ rfl
    (fun e s' h => ⟨?_, ?_⟩) (fun _ => rfl) fun _ _ => rfl
  · exact ⟨rfl, hserves.disabled, hserves.target, hserves.unlatched⟩
  · refine Serves.of_eq ?_ (standing_noteWriteFailure e)
    exact ⟨.inl rfl, h.disabled, h.target, h.unlatched⟩
  · cases e <;> rfl

/-! ### Every run -/

/-- A job whose run is carried on where it opens the circuit. -/
theorem Books.backed_runJob {job : Job Unit} (h : Opens job b.row turns → Followed turns)
    (hends : ∀ shut, Carried shut turns → Ends shut job Done b turns) : (b.runJob job turns).Backed := by
  have hcarried : Carried (¬Opens job b.row turns) turns := (Classical.em _).symm.imp_right h
  refine (hends _ hcarried).run fun q hq ⟨hshut, c, hc, hrule⟩ => hshut ⟨c, ?_, hrule⟩
  rw [← (b.run_forget job turns).2, ← hc]
  exact hq

theorem Books.backed_step {event : Event} (hb : b.Backed) (hauto : event.Automatic)
    (hunbroken : event.Unbroken b.row) : (b.step event).Backed := by
  cases event with
  | evaluate t turns =>
    exact backed_runJob hunbroken.1 fun _ hcarried =>
      Tick.ends_evaluate hauto.1 hauto.2 hb hcarried hunbroken.2 _
  | fastCircuit t turns =>
    exact backed_runJob hunbroken fun _ hcarried => FastCircuit.ends_evaluate hauto hb hcarried
  | routineEvidence t turns => exact hauto.elim
  | store e => exact (b.alike_apply hauto).backed hb

theorem Books.backed_run {events : List Event} (hb : b.Backed) (h : Unbroken b.row events) :
    (events.foldl Books.step b).Backed := by
  induction events generalizing b with
  | nil => exact hb
  | cons event events ih =>
    obtain ⟨hauto, hunbroken, hrest⟩ := h
    refine ih (Books.backed_step hb hauto hunbroken) ?_
    rw [b.step_row]
    exact hrest

/-- In every automatic run whose jobs are not cut off with an opening persisted
alone, and in which no status command is awaited when the weight is taken away, a
stored circuit has the zero write of its opening. -/
theorem circuit_zeroWritten (events : List Event) (h : Unbroken none events) :
    (Books.run events).ZeroWritten := by
  have hnone : Books.Backed ⟨none, []⟩ := Serves.held ⟨.inr rfl, rfl, rfl, rfl⟩ []
  exact (Books.backed_run hnone h).zeroWritten

/-- A store that answers every put and every creation in one way. -/
def answering (put : Option WriteErr) (change : Created) : Turn where
  events := []
  answer
    | .put _ => put
    | .change _ => change
    | .probe | .result _ | .status _ | .completedProbeCount => none

/-- A fast circuit on a channel of weight ten. -/
def fastOpening (turns : List Turn) : Event :=
  .fastCircuit ⟨⟨1, ⟨10, 10, 0, 0, 0, 1⟩, {}, 5⟩, "m", {}⟩ turns

theorem calm_of_silent (h : ∀ turn ∈ turns, turn.events = []) : Calm turns := by
  intro turn hturn e he
  rw [h turn hturn] at he
  cases he

theorem circuit_zeroWritten_pending :
    (readState (Books.run [fastOpening [answering none (.refused .failed), answering (some .failed) (.made "z" 2 true),
      answering (some .failed) (.refused .failed)]]).row).rest.phase = .circuit ∧
    (Books.run [fastOpening [answering none (.refused .failed), answering (some .failed) (.made "z" 2 true),
      answering (some .failed) (.refused .failed)]]).ZeroWritten := by
  refine ⟨rfl, circuit_zeroWritten _ ⟨calm_of_silent (by simp [answering]), fun _ => ⟨fun _ => ⟨_, _, rfl, .inl fun c => ⟨"z", 2, true, by decide, rfl⟩⟩,
    fun ⟨_, hput⟩ => (nomatch hput), fun ⟨_, hput⟩ => (nomatch hput), trivial⟩, trivial⟩⟩

/-- The process stops after the first put of an opening; or the creation fails, and
the put that takes the opening back fails too. Both times a circuit is stored for
which no command was created. -/
theorem circuit_without_zero_write :
    ((fastOpening [answering none (.refused .failed)]).Automatic ∧
      ¬(Books.run [fastOpening [answering none (.refused .failed)]]).ZeroWritten) ∧
    ((fastOpening [answering none (.refused .failed), answering none (.refused .failed),
        answering (some .failed) (.refused .failed)]).Automatic ∧
      ¬(Books.run [fastOpening [answering none (.refused .failed), answering none (.refused .failed),
        answering (some .failed) (.refused .failed)]]).ZeroWritten) := by
  refine ⟨⟨calm_of_silent (by simp [answering]), fun h => ?_⟩, calm_of_silent (by simp [answering]), fun h => ?_⟩
  · obtain ⟨id, hid, -⟩ := h (.inl rfl) rfl
    cases hid
  · obtain ⟨id, hid, -⟩ := h (.inl rfl) rfl
    cases hid

end ControlTower.Dispatch
