import ControlTower.Tuning.Engine
import ControlTower.Tuning.ProbeHistory

/-! Probe rounds over overlapping ticks.

Ticks of one engine overlap with each other, with results that come in, and with
operators and collectors that take a channel back. The fence lets no job act on a
list from before another job of its channel was done, so each channel's history is
one in which a job meets only results and resets. Commands of probes are new. -/
namespace ControlTower.Tuning
open Go Fence List Option Function

structure Ticks (J I : Type) where
  engine : Engine J I Entry
  /-- What is left of each job's evaluation. -/
  work : J → Eval
  /-- The commands of all probes so far. -/
  issued : List String

inductive Act (J I : Type) where
  /-- A moment of a tick outside of its evaluations. -/
  | moment (m : Move J I Entry)
  | proceed (j : J) (t : Tick)
  | put (j : J)
  | fold (j : J)
  | change (j : J) (created : Created)
  | probe (j : J) (id : Option String)
  | status (j : J) (answer : Option (CommandStatus × Option Time))
  | completedProbeCount (j : J) (answer : Option Int)
  /-- A result, an operator or a collector. -/
  | outside (k : ChannelKey) (e : Entry)

section Acts
variable {J I : Type} [DecidableEq J] [DecidableEq I] (key : J → ChannelKey) (evaluation : J → I) (s : Ticks J I)

def Ticks.row (k : ChannelKey) : Option (Row Circuit) := rowOf (s.engine.log k)

/-- A job is done when its evaluation is. -/
def Ticks.admits : Move J I Entry → Bool
  | .loadVersion _ | .listStates _ | .lock _ | .leave _ | .unlock _ => true
  | .bump j => match s.work j with
    | .done => true
    | _ => false
  | _ => false

def Ticks.goOn (j : J) (rest : Eval) (engine : Engine J I Entry) : Ticks J I :=
  {s with engine := engine, work := Function.update s.work j rest}

/-- The move of a job of a site evaluation. -/
def siteMove (s : Engine J I Entry) (m : Move J I Entry) : Option (Engine J I Entry) :=
  move key (fun j => .site (evaluation j)) s m

/-- A request that leaves the row alone is answered. -/
def Ticks.answer (j : J) (rest : Eval) : Option (Ticks J I) :=
  (siteMove key evaluation s.engine (.putFailed j)).map (s.goOn j rest)

def Ticks.act : Act J I → Option (Ticks J I)
  | .moment m =>
    if s.admits m then (siteMove key evaluation s.engine m).map fun e => {s with engine := e} else none
  | .outside k e =>
    if e.outside then
      (siteMove key evaluation s.engine (.elsewhere k (some e))).map fun e => {s with engine := e}
    else none
  | .proceed j t => match s.engine.session (evaluation j) with
    | .read _ listed => (siteMove key evaluation s.engine (.proceed j)).map
        (s.goOn j (t.evaluate (rowOf (listed (key j)))))
    | _ => none
  | .put j => match s.work j with
    | .put v next => match putContinuousState (s.row (key j)) v with
      | .ok _ => (siteMove key evaluation s.engine (.put j (.put v))).map (s.goOn j (next true))
      | .error _ => s.answer key evaluation j (next false)
    | _ => none
  | .fold j => match s.work j, s.engine.session (evaluation j) with
    | .fold d next, .read _ listed =>
      (siteMove key evaluation s.engine (.put j (.fold (probeOf (rowOf (listed (key j)))) d))).map
        (s.goOn j next)
    | _, _ => none
  | .change j created => match s.work j, created with
    | .change _ next, .refused e => s.answer key evaluation j (next (.refused e))
    | .change c next, .made id clock queued =>
      (siteMove key evaluation s.engine (.put j (.mark c id queued))).map
        (s.goOn j (next (.made id clock queued)))
    | _, _ => none
  | .probe j id => match s.work j, id with
    | .probe next, none => s.answer key evaluation j (next none)
    | .probe next, some id =>
      -- The ids of commands are random: no two are the same.
      if id ∈ s.issued then none
      else (s.answer key evaluation j (next (some id))).map fun s => {s with issued := id :: s.issued}
    | _, _ => none
  | .status j answer => match s.work j with
    | .status _ next => s.answer key evaluation j (next answer)
    | _ => none
  | .completedProbeCount j answer => match s.work j with
    | .completedProbeCount next => s.answer key evaluation j (next answer)
    | _ => none

def Ticks.start : Ticks J I := ⟨State.initial, fun _ => .done, []⟩

/-- The states that any interleaving leads to. -/
inductive Happens : Ticks J I → Prop
  | start : Happens Ticks.start
  | act {s s' : Ticks J I} (a : Act J I) : Happens s → s.act key evaluation a = some s' → Happens s'

end Acts

/-! ### All channels -/

section System
variable {J I : Type} (key : J → ChannelKey) (evaluation : J → I)

structure TicksInv (s : Ticks J I) (stage : J → Stage) : Prop where
  fence : Inv key (fun j => some (evaluation j)) s.engine
  channel : ∀ k, ChannelInv s.issued (s.engine.log k) (∃ j w, key j = k ∧
    s.engine.phase j = .running ∧ (stage j).deciding ∧ (some j, w) ∈ s.engine.log k)
  /-- Who folded a round that was listed stamps above what the list's tick loaded. -/
  session : ∀ i n listed, s.engine.session i = .read n listed → ∀ k,
    Listed s.issued (s.engine.log k) (rowOf (listed k)) ∧
      ((probeOf (rowOf (listed k))).lastCommandID ∈ foldsOf (s.engine.log k) →
        (readState (rowOf (listed k))).InRound →
        (readState (rowOf (listed k))).probeCommandID = none →
        ∃ j w, (some j, w) ∈ s.engine.log k ∧ ∀ v, (s.engine.phase j).stamp = some v → n < v)
  job : ∀ j, s.engine.phase j = .running → ∃ n listed,
    s.engine.session (evaluation j) = .read n listed ∧
      JobInv s.issued (s.engine.log (key j)) (rowOf (listed (key j))) (stage j) (s.work j)

variable {key evaluation} {s : Ticks J I} {stage : J → Stage}

theorem TicksInv.issue (h : TicksInv key evaluation s stage) (id : String) :
    TicksInv key evaluation {s with issued := id :: s.issued} stage := by
  refine ⟨h.fence, fun k => (h.channel k).issue id, fun i n listed hs k => ?_, fun j hr => ?_⟩
  · obtain ⟨hl, hf⟩ := h.session i n listed hs k
    exact ⟨hl.issue id, hf⟩
  · obtain ⟨n, listed, hs, hj⟩ := h.job j hr
    exact ⟨n, listed, hs, hj.issue id⟩

/-- A running job is the only one of its channel. -/
theorem TicksInv.alone (h : TicksInv key evaluation s stage) {j j' : J} (hr : s.engine.phase j = .running)
    (hr' : s.engine.phase j' = .running) (hkey : key j' = key j) : j' = j :=
  h.fence.exclusive hkey (by rw [hr]; rfl) (by rw [hr']; rfl)

variable {j : J}

/-- What a channel's invariant says of its running job. -/
theorem TicksInv.deciding (h : TicksInv key evaluation s stage) (hr : s.engine.phase j = .running) :
    ChannelInv s.issued (s.engine.log (key j))
      ((stage j).deciding ∧ ∃ w, (some j, w) ∈ s.engine.log (key j)) := by
  refine (h.channel (key j)).imp ?_
  rintro ⟨j', w, hkey, hr', hd, hw⟩
  obtain rfl := h.alone hr hr' hkey
  exact ⟨hd, w, hw⟩

variable [DecidableEq J] {rest : Eval} {st : Stage} {n : Nat} {listed : ChannelKey → History J}

/-- A running job goes on: its channel's history grows by its own entries or not at all. -/
theorem TicksInv.running (h : TicksInv key evaluation s stage)
    (hr : s.engine.phase j = .running) {engine : Engine J I Entry}
    (hfence : Inv key (fun j => some (evaluation j)) engine)
    (hphase : engine.phase = s.engine.phase) (hsession : engine.session = s.engine.session)
    (hother : ∀ k, k ≠ key j → engine.log k = s.engine.log k)
    (hgrow : engine.log (key j) = s.engine.log (key j) ∨
      ∃ x, engine.log (key j) = s.engine.log (key j) ++ [(some j, x)])
    (hs : s.engine.session (evaluation j) = .read n listed)
    (hjob : JobInv s.issued (engine.log (key j)) (rowOf (listed (key j))) st rest)
    (hchannel : ChannelInv s.issued (engine.log (key j))
      (st.deciding ∧ ∃ w, (some j, w) ∈ engine.log (key j))) :
    TicksInv key evaluation (s.goOn j rest engine) (Function.update stage j st) := by
  refine ⟨hfence, fun k => ?_, fun i n listed hs k => ?_, fun j' hr' => ?_⟩
  · show ChannelInv s.issued (engine.log k) _
    by_cases hk : k = key j
    · subst hk
      refine hchannel.imp fun ⟨hd, w, hw⟩ => ⟨j, w, rfl, ?_, ?_, hw⟩
      · show engine.phase j = .running
        rw [hphase]
        exact hr
      · rwa [update_self]
    · rw [hother k hk]
      refine (h.channel k).imp fun ⟨j', w, hkey, hr', hd, hw⟩ => ⟨j', w, hkey, ?_, ?_, ?_⟩
      · show engine.phase j' = .running
        rw [hphase]
        exact hr'
      · have hne : j' ≠ j := by
          rintro rfl
          exact hk hkey.symm
        rwa [update_of_ne hne]
      · show (some j', w) ∈ engine.log k
        rwa [hother k hk]
  · have hs' : s.engine.session i = .read n listed := by rw [← hsession]; exact hs
    obtain ⟨hl, hf⟩ := h.session i n listed hs' k
    show Listed s.issued (engine.log k) _ ∧ (_ ∈ foldsOf (engine.log k) → _ → _ →
      ∃ j w, (some j, w) ∈ engine.log k ∧ ∀ v, (engine.phase j).stamp = some v → n < v)
    rw [hphase]
    by_cases hk : k = key j
    · subst hk
      rcases hgrow with hgrow | ⟨x, hgrow⟩
      · rw [hgrow]
        exact ⟨hl, hf⟩
      · rw [hgrow]
        refine ⟨hl.concat _, fun hmem hin hcmd => ?_⟩
        -- The job that goes on has not stamped yet.
        refine ⟨j, x, mem_append_right _ (mem_singleton_self _), fun v hv => ?_⟩
        rw [hr] at hv
        cases hv
    · rw [hother k hk]
      exact ⟨hl, hf⟩
  · have hr'' : s.engine.phase j' = .running := by rw [← hphase]; exact hr'
    show ∃ n listed, engine.session (evaluation j') = .read n listed ∧ _
    rw [hsession]
    by_cases hj : j' = j
    · subst hj
      refine ⟨n, listed, hs, ?_⟩
      simp only [Ticks.goOn, update_self]
      exact hjob
    · obtain ⟨n, listed, hs, hj'⟩ := h.job j' hr''
      have hkey : key j' ≠ key j := fun hk => hj (h.alone hr hr'' hk)
      refine ⟨n, listed, hs, ?_⟩
      simp only [Ticks.goOn, update_of_ne hj, hother _ hkey]
      exact hj'

omit [DecidableEq J] in
/-- A moment outside of the evaluations: no history grows, a job only ends when its
evaluation is done, and a list that is read is the histories as they are. -/
theorem TicksInv.moment (h : TicksInv key evaluation s stage) {engine : Engine J I Entry}
    (hfence : Inv key (fun j => some (evaluation j)) engine) (hlog : engine.log = s.engine.log)
    (hold : ∀ i n listed, s.engine.session i = .read n listed → engine.session i = .read n listed)
    (hnew : ∀ i n listed, engine.session i = .read n listed →
      s.engine.session i = .read n listed ∨ (listed = s.engine.log ∧ n ≤ s.engine.counter))
    (hstarted : ∀ j, engine.phase j = .running → s.engine.phase j = .running)
    (hended : ∀ j, s.engine.phase j = .running → engine.phase j = .running ∨ s.work j = .done)
    (hstamp : ∀ j v, (engine.phase j).stamp = some v →
      (s.engine.phase j).stamp = some v ∨ s.engine.counter < v) :
    TicksInv key evaluation {s with engine := engine} stage := by
  refine ⟨hfence, fun k => ?_, fun i n listed hs k => ?_, fun j hr => ?_⟩
  · show ChannelInv s.issued (engine.log k) _
    rw [hlog]
    refine (h.channel k).imp fun ⟨j, w, hkey, hr, hd, hw⟩ => ⟨j, w, hkey, ?_, hd, ?_⟩
    · refine (hended j hr).resolve_right fun hdone => ?_
      obtain ⟨n, listed, -, hj⟩ := h.job j hr
      have hallowed := hj.allowed
      rw [hdone] at hallowed
      exact hallowed.not_deciding hd
    · exact hw
  · show Listed s.issued (engine.log k) _ ∧ (_ ∈ foldsOf (engine.log k) → _ → _ →
      ∃ j w, (some j, w) ∈ engine.log k ∧ ∀ v, (engine.phase j).stamp = some v → n < v)
    rw [hlog]
    have hlater : n ≤ s.engine.counter → ∀ j, (∀ v, (s.engine.phase j).stamp = some v → n < v) →
        ∀ v, (engine.phase j).stamp = some v → n < v := by
      intro hn j hj v hv
      rcases hstamp j v hv with hv | hlt
      · exact hj v hv
      · exact Nat.lt_of_le_of_lt hn hlt
    rcases hnew i n listed hs with hs | ⟨rfl, hn⟩
    · obtain ⟨hl, hf⟩ := h.session i n listed hs k
      refine ⟨hl, fun hmem hin hcmd => ?_⟩
      obtain ⟨j, w, hw, hj⟩ := hf hmem hin hcmd
      exact ⟨j, w, hw, hlater (h.fence.snapshot i n listed hs).1 j hj⟩
    · have hc := h.channel k
      cases hrow : rowOf (s.engine.log k) with
      | none =>
        refine ⟨listed_none, fun _ hin => ?_⟩
        cases hin.1
      | some b =>
        obtain ⟨hw, hl, hf⟩ := hc.sound b hrow
        refine ⟨⟨fun hne => ?_, hl, hf⟩, fun hmem hin hcmd => ?_⟩
        · obtain ⟨c, hc⟩ := ne_none_iff_exists'.mp hne
          exact (hw c hc).1
        · obtain ⟨j, w, -, hr, -, hw⟩ := hc.pending b hrow hin hcmd hmem
          refine ⟨j, w, hw, hlater hn j fun v hv => ?_⟩
          rw [hr] at hv
          cases hv
  · obtain ⟨n, listed, hs, hj⟩ := h.job j (hstarted j hr)
    refine ⟨n, listed, hold _ n listed hs, ?_⟩
    show JobInv s.issued (engine.log (key j)) _ _ _
    rw [hlog]
    exact hj

omit [DecidableEq J] in
/-- A result or a reset comes in. -/
theorem TicksInv.outside (h : TicksInv key evaluation s stage) {k : ChannelKey} {e : Entry}
    (he : e.outside = true)
    (hfence : Inv key (fun j => some (evaluation j)) (s.engine.append k (none, some e))) :
    TicksInv key evaluation {s with engine := s.engine.append k (none, some e)} stage := by
  have hlog : ∀ k', (s.engine.append k (none, some e)).log k' =
      if k' = k then s.engine.log k ++ [(none, some e)] else s.engine.log k' := by
    intro k'
    by_cases hk : k' = k
    · subst hk
      simp [State.append]
    · simp [State.append, hk]
  refine ⟨hfence, fun k' => ?_, fun i n listed hs k' => ?_, fun j hr => ?_⟩
  · show ChannelInv s.issued ((s.engine.append k (none, some e)).log k') _
    rw [hlog]
    by_cases hk : k' = k
    · subst hk
      rw [if_pos rfl]
      refine ((h.channel k').outside he).imp fun hpaused => ?_
      obtain ⟨j, w, hkey, hr, hd, hw⟩ := hpaused
      exact ⟨j, w, hkey, hr, hd, mem_append_left _ hw⟩
    · rw [if_neg hk]
      exact h.channel k'
  · obtain ⟨hl, hf⟩ := h.session i n listed hs k'
    show Listed s.issued ((s.engine.append k (none, some e)).log k') _ ∧
      (_ ∈ foldsOf ((s.engine.append k (none, some e)).log k') → _ → _ →
        ∃ j w, (some j, w) ∈ (s.engine.append k (none, some e)).log k' ∧ _)
    rw [hlog]
    by_cases hk : k' = k
    · subst hk
      rw [if_pos rfl]
      refine ⟨hl.concat _, fun hmem hin hcmd => ?_⟩
      rw [foldsOf_concat (outside_not_fold he)] at hmem
      obtain ⟨j, w, hw, hj⟩ := hf hmem hin hcmd
      exact ⟨j, w, mem_append_left _ hw, hj⟩
    · rw [if_neg hk]
      exact ⟨hl, hf⟩
  · obtain ⟨n, listed, hs, hj⟩ := h.job j hr
    refine ⟨n, listed, hs, ?_⟩
    show JobInv s.issued ((s.engine.append k (none, some e)).log (key j)) _ _ _
    rw [hlog]
    by_cases hk : key j = k
    · rw [if_pos hk, ← hk]
      exact hj.outside he
    · rw [if_neg hk]
      exact hj

/-- A job gets past the fence and takes up the row that its tick listed. -/
theorem TicksInv.proceed (h : TicksInv key evaluation s stage) (hl : s.engine.phase j = .locked)
    (hs : s.engine.session (evaluation j) = .read n listed)
    (hversion : (s.engine.guard (key j)).version ≤ n)
    (hfence : Inv key (fun j => some (evaluation j)) (s.engine.setPhase j .running)) (t : Tick) :
    TicksInv key evaluation
      (s.goOn j (t.evaluate (rowOf (listed (key j)))) (s.engine.setPhase j .running))
      (Function.update stage j (startStage (rowOf (listed (key j))))) := by
  have hphase : ∀ j', j' ≠ j → (s.engine.setPhase j .running).phase j' = s.engine.phase j' :=
    fun j' hne => update_of_ne hne _ _
  have hnot : ∀ j', s.engine.phase j' = .running → j' ≠ j := by
    rintro j' hr rfl
    rw [hl] at hr
    cases hr
  obtain ⟨hlisted, hfolder⟩ := h.session _ n listed hs (key j)
  -- Everything since the list came from outside.
  obtain ⟨suffix, hlog, hsuffix⟩ : ∃ suffix, s.engine.log (key j) = listed (key j) ++ suffix ∧
      ∀ x ∈ suffix, ∃ e, x = (none, some e) ∧ e.outside = true := by
    have hpass : s.engine.passes key (fun j => some (evaluation j)) j = true := by
      simp [State.passes, hs, hversion]
    obtain ⟨n', listed', hs', suffix, hlog, hwho⟩ := start_fenced h.fence rfl hl hpass
    rw [hs] at hs'
    cases hs'
    refine ⟨suffix, hlog, fun write hx => ?_⟩
    obtain ⟨who, x⟩ := write
    have hmem : (who, x) ∈ s.engine.log (key j) := by
      rw [hlog]
      exact mem_append_right _ hx
    rcases hwho _ hx with hw | hw
    · obtain rfl : who = none := hw
      obtain ⟨e, rfl, he⟩ := (h.channel (key j)).undeleted x hmem
      exact ⟨e, rfl, he⟩
    · obtain rfl : who = some j := hw
      rcases (h.fence.written _ j x hmem).2 with hr | ⟨v, hv, -⟩
      · exact absurd rfl (hnot j hr)
      · rw [hl] at hv
        cases hv
  have hjob : JobInv s.issued (s.engine.log (key j)) (rowOf (listed (key j)))
      (startStage (rowOf (listed (key j)))) (t.evaluate (rowOf (listed (key j)))) := by
    refine ⟨evaluate_allowed t _ hlisted.waiting, hlisted, ?_, ?_, ?_⟩
    · rw [hlog]
      exact (Follows.start hlisted).suffix hsuffix
    · intro hst hcmd hmem
      have hin : (readState (rowOf (listed (key j)))).InRound := by
        unfold startStage at hst
        split at hst
        · assumption
        · cases hst
      -- Who folded it is done, and stamped below what this tick loaded.
      obtain ⟨j', w, hw, hstamp⟩ := hfolder hmem hin hcmd
      obtain ⟨hkey, hr | ⟨v, hv, hle⟩⟩ := h.fence.written _ j' w hw
      · exact hnot j' hr (h.fence.exclusive hkey (by rw [hl]; rfl) (by rw [hr]; rfl))
      · have hlt := hstamp v hv
        omega
    · intro id hst
      unfold startStage at hst
      split at hst
      · cases hst
      · cases hst
  refine ⟨hfence, fun k => ?_, fun i n' listed' hs' k => ?_, fun j' hr => ?_⟩
  · refine (h.channel k).imp fun hpaused => ?_
    obtain ⟨j', w, hkey, hr, hd, hw⟩ := hpaused
    refine ⟨j', w, hkey, ?_, ?_, hw⟩
    · exact (hphase j' (hnot j' hr)).trans hr
    · rwa [update_of_ne (hnot j' hr)]
  · obtain ⟨hl', hf⟩ := h.session i n' listed' hs' k
    refine ⟨hl', fun hmem hin hcmd => ?_⟩
    obtain ⟨j', w, hw, hstamp⟩ := hf hmem hin hcmd
    refine ⟨j', w, hw, fun v hv => ?_⟩
    by_cases hj : j' = j
    · subst hj
      have hv' : ((s.engine.setPhase j' .running).phase j').stamp = some v := hv
      simp [State.setPhase, Phase.stamp] at hv'
    · have hv' : ((s.engine.setPhase j .running).phase j').stamp = some v := hv
      rw [hphase j' hj] at hv'
      exact hstamp v hv'
  · by_cases hj : j' = j
    · subst hj
      refine ⟨n, listed, hs, ?_⟩
      simp only [Ticks.goOn, update_self]
      exact hjob
    · have hr' : s.engine.phase j' = .running := (hphase j' hj).symm.trans hr
      obtain ⟨n', listed', hs', hj'⟩ := h.job j' hr'
      refine ⟨n', listed', hs', ?_⟩
      simp only [Ticks.goOn, update_of_ne hj]
      exact hj'

variable {engine engine' : Engine J I Entry}

/-- One job moves to a phase that is not running. -/
theorem TicksInv.leaves (h : TicksInv key evaluation s stage) {p : Phase}
    (hfence : Inv key (fun j => some (evaluation j)) engine) (hlog : engine.log = s.engine.log)
    (hsession : engine.session = s.engine.session)
    (hphase : engine.phase = Function.update s.engine.phase j p) (hp : p ≠ .running)
    (hended : s.engine.phase j = .running → s.work j = .done)
    (hstamp : ∀ v, p.stamp = some v → (s.engine.phase j).stamp = some v ∨ s.engine.counter < v) :
    TicksInv key evaluation {s with engine := engine} stage := by
  refine h.moment hfence hlog (fun i n listed hs => by rw [hsession]; exact hs)
    (fun i n listed hs => .inl (by rw [← hsession]; exact hs)) ?_ ?_ ?_
  · intro j' hr
    rw [hphase] at hr
    by_cases hj : j' = j
    · subst hj
      rw [update_self] at hr
      exact absurd hr hp
    · rwa [update_of_ne hj] at hr
  · intro j' hr
    by_cases hj : j' = j
    · subst hj
      exact .inr (hended hr)
    · refine .inl ?_
      rw [hphase, update_of_ne hj]
      exact hr
  · intro j' v hv
    rw [hphase] at hv
    by_cases hj : j' = j
    · subst hj
      rw [update_self] at hv
      exact hstamp v hv
    · rw [update_of_ne hj] at hv
      exact .inl hv

/-- A running job adds an entry to its channel's history. -/
theorem TicksInv.writes (h : TicksInv key evaluation s stage) (hr : s.engine.phase j = .running) {x : Entry}
    (hfence : Inv key (fun j => some (evaluation j)) (s.engine.append (key j) (some j, some x)))
    (hs : s.engine.session (evaluation j) = .read n listed)
    (hjob : JobInv s.issued (s.engine.log (key j) ++ [(some j, some x)]) (rowOf (listed (key j))) st rest)
    (hchannel : ChannelInv s.issued (s.engine.log (key j) ++ [(some j, some x)]) st.deciding) :
    TicksInv key evaluation (s.goOn j rest (s.engine.append (key j) (some j, some x)))
      (Function.update stage j st) := by
  have hlog : (s.engine.append (key j) (some j, some x)).log (key j) =
      s.engine.log (key j) ++ [(some j, some x)] := update_self _ _ _
  refine h.running hr hfence rfl rfl (fun k hk => update_of_ne hk _ _) (.inr ⟨_, hlog⟩) hs ?_ ?_
  · rw [hlog]
    exact hjob
  · rw [hlog]
    exact hchannel.imp fun hd => ⟨hd, _, mem_append_right _ (mem_singleton_self _)⟩

/-- A running job is answered without an entry. -/
theorem TicksInv.answered (h : TicksInv key evaluation s stage) (hr : s.engine.phase j = .running)
    (hs : s.engine.session (evaluation j) = .read n listed)
    (hjob : JobInv s.issued (s.engine.log (key j)) (rowOf (listed (key j))) st rest)
    (hchannel : ChannelInv s.issued (s.engine.log (key j))
      (st.deciding ∧ ∃ w, (some j, w) ∈ s.engine.log (key j))) :
    TicksInv key evaluation (s.goOn j rest s.engine) (Function.update stage j st) :=
  h.running hr h.fence rfl rfl (fun _ _ => rfl) (.inl rfl) hs hjob hchannel

/-- A running job whose request leaves it where it is. -/
theorem TicksInv.goesOn (h : TicksInv key evaluation s stage) (hr : s.engine.phase j = .running)
    (hallowed : ∀ u st, Allowed u st (s.work j) → Allowed u st rest) :
    TicksInv key evaluation (s.goOn j rest s.engine) (Function.update stage j (stage j)) := by
  obtain ⟨n, listed, hs, hj⟩ := h.job j hr
  exact h.answered hr hs (hj.goOn (hallowed _ _ hj.allowed)) (h.deciding hr)

/-! ### Runs -/

variable [DecidableEq I]

theorem siteMove_reachable (h : Reachable key (fun j => some (evaluation j)) engine)
    {m : Move J I Entry} (hm : siteMove key evaluation engine m = some engine') :
    Reachable key (fun j => some (evaluation j)) engine' :=
  move_fence key (fun j => .site (evaluation j)) h hm

theorem siteMove_put {x : Entry} (hm : siteMove key evaluation engine (.put j x) = some engine') :
    engine.phase j = .running ∧ engine' = engine.append (key j) (some j, some x) := by
  simp only [siteMove, move] at hm
  split at hm
  · rename_i hr
    cases hm
    exact ⟨hr, rfl⟩
  · rename_i hk
    cases hk
  · cases hm

theorem siteMove_putFailed (hm : siteMove key evaluation engine (.putFailed j) = some engine') :
    engine.phase j = .running ∧ engine' = engine := by
  simp only [siteMove, move] at hm
  split at hm
  · rename_i hr
    cases hm
    exact ⟨hr, rfl⟩
  · rename_i hk
    cases hk
  · cases hm

theorem siteMove_proceed (hm : siteMove key evaluation engine (.proceed j) = some engine') :
    engine.phase j = .locked ∧ engine' = engine.setPhase j .running ∧
      ∀ n listed, engine.session (evaluation j) = .read n listed → (engine.guard (key j)).version ≤ n := by
  simp only [siteMove, move] at hm
  split at hm
  · rename_i i hl hk
    cases hk
    split at hm
    · rename_i n listed hs
      split at hm
      · cases hm
      · rename_i hversion
        cases hm
        refine ⟨hl, rfl, fun n' listed' hs' => ?_⟩
        rw [hs] at hs'
        cases hs'
        exact Nat.not_lt.mp hversion
    · cases hm
  · rename_i hk
    cases hk
  · cases hm

theorem TicksInv.admitted (h : TicksInv key evaluation s stage) {m : Move J I Entry}
    (ha : s.admits m = true) (hm : siteMove key evaluation s.engine m = some engine)
    (hfence : Inv key (fun j => some (evaluation j)) engine) :
    TicksInv key evaluation {s with engine := engine} stage := by
  cases m with
  | loadVersion i =>
    simp only [siteMove, move] at hm
    split at hm
    · rename_i hi
      cases hm
      refine h.moment hfence rfl (fun i' n listed hs => ?_) (fun i' n listed hs => .inl ?_)
        (fun _ hr => hr) (fun _ hr => .inl hr) fun _ _ hv => .inl hv
      · have hne : i' ≠ i := by
          rintro rfl
          rw [hi] at hs
          cases hs
        exact (update_of_ne hne _ _).trans hs
      · by_cases hne : i' = i
        · subst hne
          simp [State.setSession] at hs
        · exact (update_of_ne hne _ _).symm.trans hs
    · cases hm
  | listStates i =>
    simp only [siteMove, move] at hm
    split at hm
    · rename_i n₀ hi
      cases hm
      refine h.moment hfence rfl (fun i' n listed hs => ?_) (fun i' n listed hs => ?_)
        (fun _ hr => hr) (fun _ hr => .inl hr) fun _ _ hv => .inl hv
      · have hne : i' ≠ i := by
          rintro rfl
          rw [hi] at hs
          cases hs
        exact (update_of_ne hne _ _).trans hs
      · by_cases hne : i' = i
        · subst hne
          simp only [State.setSession, update_self, Session.read.injEq] at hs
          obtain ⟨rfl, rfl⟩ := hs
          exact .inr ⟨rfl, h.fence.loaded i' _ hi⟩
        · exact .inl ((update_of_ne hne _ _).symm.trans hs)
    · cases hm
  | lock j =>
    simp only [siteMove, move] at hm
    split at hm
    · rename_i hw hfree
      cases hm
      refine h.leaves (j := j) hfence rfl rfl rfl (by simp) (fun hr => ?_) fun v hv => ?_
      · rw [hw] at hr
        cases hr
      · cases hv
    · cases hm
  | leave j =>
    simp only [siteMove, move] at hm
    split at hm
    · rename_i hl
      cases hm
      refine h.leaves (j := j) hfence rfl rfl rfl (by simp) (fun hr => ?_) fun v hv => ?_
      · rw [hl] at hr
        cases hr
      · cases hv
    · cases hm
  | bump j =>
    have hdone : s.work j = .done := by
      simp only [Ticks.admits] at ha
      split at ha
      · assumption
      · cases ha
    simp only [siteMove, move] at hm
    split at hm
    · cases hm
      refine h.leaves (j := j) hfence rfl rfl rfl (by simp) (fun _ => hdone) fun v hv => .inr ?_
      simp only [Phase.stamp, Option.some.injEq] at hv
      omega
    · cases hm
  | unlock j =>
    simp only [siteMove, move] at hm
    split at hm
    · rename_i v₀ hv₀
      cases hm
      refine h.leaves (j := j) hfence rfl rfl rfl (by simp) (fun hr => ?_) fun v hv => .inl ?_
      · rw [hv₀] at hr
        cases hr
      · rw [hv₀]
        exact hv
    · cases hm
  | proceed j => cases ha
  | put j row => cases ha
  | putFailed j => cases ha
  | elsewhere k row => cases ha

/-- **The invariant is kept by every act.** -/
theorem TicksInv.act (h : TicksInv key evaluation s stage)
    (hreach : Reachable key (fun j => some (evaluation j)) s.engine) {a : Act J I} {s' : Ticks J I}
    (ha : s.act key evaluation a = some s') :
    Reachable key (fun j => some (evaluation j)) s'.engine ∧
      ∃ stage', TicksInv key evaluation s' stage' := by
  -- What the answer to a request that leaves the row alone leads to.
  have hanswer : ∀ {j rest s'}, s.answer key evaluation j rest = some s' →
      s.engine.phase j = .running ∧ s' = s.goOn j rest s.engine := by
    intro j rest s' hans
    obtain ⟨engine, hm, rfl⟩ := map_eq_some_iff.mp hans
    obtain ⟨hr, rfl⟩ := siteMove_putFailed hm
    exact ⟨hr, rfl⟩
  cases a with
  | moment m =>
    simp only [Ticks.act] at ha
    split at ha
    · rename_i hadmits
      obtain ⟨engine, hm, rfl⟩ := map_eq_some_iff.mp ha
      have hreach' := siteMove_reachable hreach hm
      exact ⟨hreach', stage, h.admitted hadmits hm (reachable_inv hreach')⟩
    · cases ha
  | outside k e =>
    simp only [Ticks.act] at ha
    split at ha
    · rename_i he
      obtain ⟨engine, hm, rfl⟩ := map_eq_some_iff.mp ha
      have hreach' := siteMove_reachable hreach hm
      cases hm
      exact ⟨hreach', stage, h.outside he (reachable_inv hreach')⟩
    · cases ha
  | proceed j t =>
    simp only [Ticks.act] at ha
    split at ha
    · rename_i n listed hs
      obtain ⟨engine, hm, rfl⟩ := map_eq_some_iff.mp ha
      have hreach' := siteMove_reachable hreach hm
      obtain ⟨hl, rfl, hversion⟩ := siteMove_proceed hm
      exact ⟨hreach', _, h.proceed hl hs (hversion n listed hs) (reachable_inv hreach') t⟩
    · cases ha
  | put j =>
    simp only [Ticks.act] at ha
    split at ha
    · rename_i v next hw
      split at ha
      · rename_i b hput
        obtain ⟨engine, hm, rfl⟩ := map_eq_some_iff.mp ha
        have hreach' := siteMove_reachable hreach hm
        obtain ⟨hr, rfl⟩ := siteMove_put hm
        obtain ⟨n, listed, hs, hj⟩ := h.job j hr
        rw [hw] at hj
        obtain ⟨hc, st, hj'⟩ := hj.put_ok (j := j) (h.deciding hr) (·.1) hput
        exact ⟨hreach', _, h.writes hr (reachable_inv hreach') hs hj' (hc.imp False.elim)⟩
      · rename_i e hput
        obtain ⟨hr, rfl⟩ := hanswer ha
        obtain ⟨n, listed, hs, hj⟩ := h.job j hr
        rw [hw] at hj
        obtain ⟨hc, st, hj'⟩ := hj.put_error (h.deciding hr) (·.1) hput
        exact ⟨hreach, _, h.answered hr hs hj' (hc.imp False.elim)⟩
    · cases ha
  | fold j =>
    simp only [Ticks.act] at ha
    split at ha
    · rename_i d next n listed hw hs
      obtain ⟨engine, hm, rfl⟩ := map_eq_some_iff.mp ha
      have hreach' := siteMove_reachable hreach hm
      obtain ⟨hr, rfl⟩ := siteMove_put hm
      obtain ⟨n', listed', hs', hj⟩ := h.job j hr
      rw [hs] at hs'
      cases hs'
      rw [hw] at hj
      obtain ⟨hc, hj'⟩ := hj.fold (j := j) (h.deciding hr)
      exact ⟨hreach', _, h.writes hr (reachable_inv hreach') hs hj' (hc.imp fun _ => trivial)⟩
    · cases ha
  | change j created =>
    simp only [Ticks.act] at ha
    split at ha
    · rename_i c next e hw
      obtain ⟨hr, rfl⟩ := hanswer ha
      refine ⟨hreach, _, h.goesOn hr fun u st hallowed => ?_⟩
      rw [hw] at hallowed
      cases hallowed with
      | change _ hnext => exact hnext _
    · rename_i c next id clock queued hw
      obtain ⟨engine, hm, rfl⟩ := map_eq_some_iff.mp ha
      have hreach' := siteMove_reachable hreach hm
      obtain ⟨hr, rfl⟩ := siteMove_put hm
      obtain ⟨n, listed, hs, hj⟩ := h.job j hr
      rw [hw] at hj
      obtain ⟨hc, hj'⟩ := hj.mark (j := j) (h.deciding hr) id clock queued
      exact ⟨hreach', _, h.writes hr (reachable_inv hreach') hs hj' (hc.imp False.elim)⟩
    · cases ha
  | probe j id =>
    simp only [Ticks.act] at ha
    split at ha
    · rename_i next hw
      obtain ⟨hr, rfl⟩ := hanswer ha
      refine ⟨hreach, _, h.goesOn hr fun u st hallowed => ?_⟩
      rw [hw] at hallowed
      cases hallowed with
      | probe _ _ hnone _ => exact hnone
    · rename_i next id hw
      split at ha
      · cases ha
      · rename_i hid
        obtain ⟨s₁, hans, rfl⟩ := map_eq_some_iff.mp ha
        obtain ⟨hr, rfl⟩ := hanswer hans
        obtain ⟨n, listed, hs, hj⟩ := h.job j hr
        rw [hw] at hj
        have hj' := hj.probe (h.deciding hr) hid
        exact ⟨hreach, _, (h.issue id).answered hr hs hj'
          (((h.deciding hr).issue id).imp fun hd => ⟨trivial, hd.2⟩)⟩
    · cases ha
  | status j answer =>
    simp only [Ticks.act] at ha
    split at ha
    · rename_i id next hw
      obtain ⟨hr, rfl⟩ := hanswer ha
      refine ⟨hreach, _, h.goesOn hr fun u st hallowed => ?_⟩
      rw [hw] at hallowed
      cases hallowed with
      | status hnext => exact hnext _
    · cases ha
  | completedProbeCount j answer =>
    simp only [Ticks.act] at ha
    split at ha
    · rename_i next hw
      obtain ⟨hr, rfl⟩ := hanswer ha
      refine ⟨hreach, _, h.goesOn hr fun u st hallowed => ?_⟩
      rw [hw] at hallowed
      cases hallowed with
      | completedProbeCount hnext => exact hnext _
    · cases ha

omit [DecidableEq J] [DecidableEq I] in
theorem start_inv : TicksInv key evaluation (Ticks.start : Ticks J I) fun _ => .closed := by
  refine ⟨initial_inv _ _, fun k => ⟨?_, ?_, ?_, ?_, ?_, ?_⟩, ?_, ?_⟩
  · intro x hx
    cases hx
  · intro b hb
    cases hb
  · exact nodup_nil
  · intro who p d hmem
    cases hmem
  · intro c hc
    cases hc
  · intro b hb
    cases hb
  · intro i n listed hs
    cases hs
  · intro j hr
    cases hr

theorem happens_inv (h : Happens key evaluation s) :
    Reachable key (fun j => some (evaluation j)) s.engine ∧ ∃ stage, TicksInv key evaluation s stage := by
  induction h with
  | start => exact ⟨.initial, _, start_inv⟩
  | act a _ ha ih =>
    obtain ⟨hreach, stage, hinv⟩ := ih
    exact hinv.act hreach ha

/-- **A finished round is neither awaited again nor folded twice**, in any
interleaving of ticks, results and resets. A row never awaits the command whose
result it has. No command's result is folded twice, and what is folded is that
result. And a put of a tick that started before a result came in leaves the
result, unless it gives up the round. -/
theorem probe_round_once (h : Happens key evaluation s) :
    (∀ k r c, s.row k = some r → r.probe.commandID = some c → r.probe.lastCommandID ≠ some c) ∧
      (∀ k, (foldsOf (s.engine.log k)).Nodup ∧
        ∀ who p d, (who, some (.fold p d)) ∈ s.engine.log k → Recorded (s.engine.log k) p) ∧
      ∀ j v next n listed, s.engine.phase j = .running → s.work j = .put v next →
        s.engine.session (evaluation j) = .read n listed →
        (probeOf (s.row (key j))).lastCommandID ≠ (probeOf (rowOf (listed (key j)))).lastCommandID →
        probeOf ((Entry.put v).apply (s.row (key j))) = probeOf (s.row (key j)) ∨
          (v.probeCommandID = none ∧ v.rest.phase ≠ .probing) := by
  obtain ⟨-, stage, hinv⟩ := happens_inv h
  refine ⟨fun k r c hr hc => ?_, fun k => ⟨(hinv.channel k).once, (hinv.channel k).folded⟩, ?_⟩
  · exact (((hinv.channel k).sound r hr).waiting c hc).2.2.1
  · intro j v next n listed hr hw hs hlast
    obtain ⟨n', listed', hs', hj⟩ := hinv.job j hr
    rw [hs] at hs'
    cases hs'
    rw [hw] at hj
    exact hj.put_keeps hlast

theorem happens_acts (h : Happens key evaluation s) (acts : List (Act J I)) {s' : Ticks J I}
    (ha : acts.foldlM (fun s a => s.act key evaluation a) s = some s') : Happens key evaluation s' := by
  induction acts generalizing s with
  | nil =>
    simp only [List.foldlM_nil, Option.pure_def, Option.some.injEq] at ha
    exact ha ▸ h
  | cons a rest ih =>
    simp only [List.foldlM_cons, Option.bind_eq_bind, Option.bind_eq_some_iff] at ha
    obtain ⟨s₁, h₁, hrest⟩ := ha
    exact ih (h.act a h₁) hrest

end System

/-! ### A result that comes in during a tick -/

def failingTick (now : Time) : Tick where
  now := now
  model := "m"
  mode := .auto
  rules := ⟨0, 5, 3, 60, 3, 1, 600⟩
  latestSilentMinutes := 0
  schedule := {}
  baseWeight := 10
  models := 1
  capacityConfigured := false
  hasRateSnapshot := false
  capacityLimited := false
  evidenceGap := false
  foldedRequests := 0
  foldedErrors := 0
  recovers := fun _ _ _ => false
  passiveRecovers := fun _ _ => false
  recoveryWeight := 1
  trips := true
  sparse := false
  weight := 10
  needsWrite := false

def probedChannel (_ : Nat) : ChannelKey := ⟨"site", 1⟩

def tickStarts (j : Nat) : List (Act Nat Nat) :=
  [.moment (.loadVersion j), .moment (.listStates j), .moment (.lock j), .proceed j (failingTick j)]

def tickEnds (j : Nat) : List (Act Nat Nat) := [.moment (.bump j), .moment (.unlock j)]

/-- The circuit opens, a probe is launched, and its result comes in while another
tick waits for it; the tick after that folds it. -/
def resultDuringTick : List (Act Nat Nat) :=
  tickStarts 0 ++ [.put 0, .change 0 (.made "" 0 false), .put 0] ++ tickEnds 0 ++
    tickStarts 1 ++ [.probe 1 (some "p"), .put 1] ++ tickEnds 1 ++
    tickStarts 2 ++ [.outside ⟨"site", 1⟩ (.record "p" 1 0 0 0 2), .put 2] ++ tickEnds 2 ++
    tickStarts 3 ++ [.completedProbeCount 3 (some 1), .fold 3]

theorem probe_round_once_resultDuringTick :
    ∃ s, resultDuringTick.foldlM (fun s a => s.act probedChannel id a) Ticks.start = some s ∧
      foldsOf (s.engine.log ⟨"site", 1⟩) = [some "p"] ∧
      (foldsOf (s.engine.log ⟨"site", 1⟩)).Nodup := by
  obtain ⟨s, hs⟩ : ∃ s, resultDuringTick.foldlM (fun s a => s.act probedChannel id a)
      (Ticks.start : Ticks Nat Nat) = some s := ⟨_, rfl⟩
  have hrun : Happens probedChannel id s := happens_acts .start resultDuringTick hs
  have hfolds : foldsOf (s.engine.log ⟨"site", 1⟩) = [some "p"] := by
    cases hs
    rfl
  obtain ⟨-, honce, -⟩ := probe_round_once hrun
  exact ⟨s, hs, hfolds, (honce _).1⟩

end ControlTower.Tuning
