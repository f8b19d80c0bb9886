import ControlTower.ErrorStats.Stream
import Mathlib.Algebra.Order.BigOperators.Group.List

/-! No event is lost silently or counted twice.

Every eligible event is in a row of the queue, in a batch that `Flush` removed after it
was sent, or in `dropped`. `Ledger` keeps what the state forgets: the eligible events,
the removed batches, what was sent, and the losses in the order in which they were
recorded. The invariant `Kept` ties the two together; it is proved for each step from one
description of what a recorded page does to the queue. -/
namespace ControlTower.ErrorStats
open Go Data List

/-! ### The events of a page -/

section Scan
variable (codes : String → Int × Int)

/-- The event is new, not from before the statistics, and an error. -/
def Event.counts (seen : Int) (startedAt : Time) (e : Event) : Bool :=
  decide (seen < e.sourceLogId) && !decide (e.createdAt < startedAt) && decide (e.code codes ≠ "")

/-- What a scan has accounted for. -/
def Scan.total (acc : Scan) : Int := acc.dropped + acc.counts.sumOn fun _ => true

theorem scanEvent_total (seen : Int) (startedAt now : Time) (acc : Scan) (e : Event) :
    (scanEvent codes seen startedAt now acc e).total =
      acc.total + if e.counts codes seen startedAt then 1 else 0 := by
  simp only [scanEvent, Event.counts, Scan.total]
  by_cases hseen : e.sourceLogId ≤ seen
  · simp [hseen, Int.not_lt.mpr hseen]
  · have hnew : seen < e.sourceLogId := Int.not_le.mp hseen
    have hwater : ∀ acc' : Scan, (if acc'.lastId < e.sourceLogId then { acc' with lastId := e.sourceLogId } else acc').dropped = acc'.dropped ∧
        (if acc'.lastId < e.sourceLogId then { acc' with lastId := e.sourceLogId } else acc').counts = acc'.counts := by
      intro acc'
      split <;> exact ⟨rfl, rfl⟩
    simp only [hseen, if_false]
    generalize hacc : (if acc.lastId < e.sourceLogId then { acc with lastId := e.sourceLogId } else acc) = acc'
    obtain ⟨hd, hc⟩ := hwater acc
    rw [hacc] at hd hc
    by_cases hold : e.createdAt < startedAt
    · simp [hold, hd, hc]
    · by_cases hcode : e.code codes = ""
      · simp [hold, hcode, hd, hc]
      · cases hbad : e.unusable now with
        | true => simp [hold, hcode, hd, hc, hnew, Int.add_right_comm]
        | false => simp [hold, hcode, hd, hc, hnew, Tally.sumOn_add, Int.add_assoc]

theorem sum_ite_eq_length {α : Type} (p : α → Bool) (l : List α) :
    (l.map fun a => if p a then (1 : Int) else 0).sum = (l.filter p).length := by
  induction l with
  | nil => rfl
  | cons a l ih =>
    rw [map_cons, sum_cons, ih]
    cases h : p a with
    | true =>
      rw [filter_cons_of_pos h, length_cons, if_pos rfl]
      omega
    | false =>
      rw [filter_cons_of_neg (by simp [h])]
      simp

/-- The counts of a page stand for its events. -/
theorem Call.scan_total (s : Snapshot) (call : Call) :
    (call.scan codes s).total =
      s.dropped + ((call.events.filter (Event.counts codes s.lastId s.startedAt)).length : Int) := by
  rw [Call.scan, foldl_measure (fun e _ acc => scanEvent_total codes s.lastId s.startedAt call.now acc e),
    sum_ite_eq_length]
  simp [Scan.total, Tally.sumOn, Table.total, Table.empty]

/-- What holds of the fold over the events at every point. -/
structure Scan.Past (seen dropped : Int) (events : List Event) (acc : Scan) : Prop where
  water : seen ≤ acc.lastId
  reached : ∀ e ∈ events, e.sourceLogId ≤ acc.lastId
  dropped : dropped ≤ acc.dropped
  positive : ∀ e ∈ acc.counts.rows, 0 < e.2

theorem Scan.Past.event {seen dropped : Int} {events : List Event} {acc : Scan} (h : acc.Past seen dropped events)
    (startedAt now : Time) (e : Event) :
    (scanEvent codes seen startedAt now acc e).Past seen dropped (events ++ [e]) := by
  have hwater : seen ≤ (if acc.lastId < e.sourceLogId then { acc with lastId := e.sourceLogId } else acc).lastId ∧
      (∀ e' ∈ events ++ [e], e'.sourceLogId ≤ (if acc.lastId < e.sourceLogId then { acc with lastId := e.sourceLogId } else acc).lastId) := by
    have hw := h.water
    split
    next hlt =>
      refine ⟨by show seen ≤ e.sourceLogId; omega, fun e' he' => ?_⟩
      show e'.sourceLogId ≤ e.sourceLogId
      rcases mem_append.mp he' with he' | he'
      · have := h.reached e' he'
        omega
      · rw [mem_singleton.mp he']
    next hle =>
      refine ⟨hw, fun e' he' => ?_⟩
      rcases mem_append.mp he' with he' | he'
      · exact h.reached e' he'
      · rw [mem_singleton.mp he']
        omega
  simp only [scanEvent]
  split
  next hseen =>
    refine ⟨h.water, fun e' he' => ?_, h.dropped, h.positive⟩
    rcases mem_append.mp he' with he' | he'
    · exact h.reached e' he'
    · rw [mem_singleton.mp he']
      have := h.water
      omega
  next =>
    have hd : (if acc.lastId < e.sourceLogId then { acc with lastId := e.sourceLogId } else acc).dropped = acc.dropped := by
      split <;> rfl
    have hc : (if acc.lastId < e.sourceLogId then { acc with lastId := e.sourceLogId } else acc).counts = acc.counts := by
      split <;> rfl
    generalize (if acc.lastId < e.sourceLogId then { acc with lastId := e.sourceLogId } else acc) = acc' at *
    have hdropped := h.dropped
    have hpositive := h.positive
    rw [← hd] at hdropped
    rw [← hc] at hpositive
    split
    next => exact ⟨hwater.1, hwater.2, hdropped, hpositive⟩
    next =>
      split
      next => exact ⟨hwater.1, hwater.2, hdropped, hpositive⟩
      next =>
        split
        next => exact ⟨hwater.1, hwater.2, by show dropped ≤ acc'.dropped + 1; omega, hpositive⟩
        next =>
          refine ⟨hwater.1, hwater.2, hdropped, fun b hb => ?_⟩
          rcases Table.mem_put.mp hb with rfl | ⟨hb, -⟩
          · have hvalue : 0 ≤ acc'.counts.value (e.key codes) := by
              rw [Tally.value]
              cases hf : acc'.counts.find (e.key codes) with
              | none => exact Int.le_refl 0
              | some b => exact Int.le_of_lt (hpositive b (Table.find_eq_some.mp hf).1)
            show 0 < acc'.counts.value (e.key codes) + 1
            omega
          · exact hpositive b hb

theorem Call.scan_past (s : Snapshot) (call : Call) : (call.scan codes s).Past s.lastId s.dropped call.events := by
  have hfold : ∀ (events past : List Event) (acc : Scan), acc.Past s.lastId s.dropped past →
      (events.foldl (scanEvent codes s.lastId s.startedAt call.now) acc).Past s.lastId s.dropped (past ++ events) := by
    intro events
    induction events with
    | nil =>
      intro past acc h
      rwa [append_nil]
    | cons e events ih =>
      intro past acc h
      have := ih (past ++ [e]) _ (h.event codes s.startedAt call.now e)
      rwa [append_assoc] at this
  refine hfold call.events [] _ ⟨?_, by simp, Int.le_refl _, by simp [Table.empty]⟩
  show s.lastId ≤ if call.gap s = true then call.sourceAfterId.getD s.lastId else s.lastId
  split
  next hgap =>
    cases hid : call.sourceAfterId with
    | none => simp [Call.gap, hid] at hgap
    | some id =>
      have : s.lastId < id := by simpa [Call.gap, hid] using hgap
      exact Int.le_of_lt this
  next => exact Int.le_refl _

end Scan

/-! ### The batches of a page -/

def countOf (queue : List Batch) : Int := (queue.map Batch.count).sum

def rowsOf (queue : List Batch) : Nat := (queue.map fun b => b.rows.length).sum

theorem countOf_append (q q' : List Batch) : countOf (q ++ q') = countOf q + countOf q' := by
  simp [countOf]

theorem countOf_split (q : List Batch) (j : Nat) : countOf q = countOf (q.take j) + countOf (q.drop j) := by
  rw [← countOf_append, take_append_drop]

theorem slices_flatten (rows : List Row) : (slices rows).flatten = rows := by
  have hparts : ∀ k, ((List.range k).map fun i => (rows.drop (maxRows * i)).take maxRows).flatten = rows.take (maxRows * k) := by
    intro k
    induction k with
    | zero => simp
    | succ k ih =>
      rw [range_succ, map_append, flatten_append, ih, Nat.mul_succ, take_add]
      simp
  rw [slices, hparts, take_of_length_le]
  simp only [maxRows]
  omega

theorem slices_length_le {rows part : List Row} (h : part ∈ slices rows) : part.length ≤ maxRows := by
  obtain ⟨i, -, rfl⟩ := mem_map.mp h
  exact length_take_le _ _

/-- The batches hold the rows of their parts. -/
theorem newBatches_rows (s : Snapshot) (call : Call) (coveredUntil : Option Time) (parts : List (List Row)) :
    (newBatches s call coveredUntil parts).map Batch.rows = parts := by
  apply ext_getElem
  · simp [newBatches]
  · intro i h₁ h₂
    simp [newBatches]

section Batches
variable (codes : String → Int × Int) (s : Snapshot) (call : Call)

theorem Call.batches_rows : (call.batches codes s).map Batch.rows = slices (call.pending codes s) :=
  newBatches_rows ..

theorem Call.batches_count : countOf (call.batches codes s) = (call.scan codes s).counts.sumOn fun _ => true := by
  have hrows : countOf (call.batches codes s) =
      (((call.batches codes s).map Batch.rows).flatten.map Row.count).sum := by
    rw [countOf, map_flatten, sum_flatten, map_map, map_map]
    rfl
  rw [hrows, Call.batches_rows, slices_flatten, Call.pending,
    ((call.order_perm _).map Row.count).sum_eq, map_map]
  simp [Tally.sumOn, Table.total, Function.comp_def, Key.row]

theorem Call.batch_rows_le {b : Batch} (h : b ∈ call.batches codes s) : b.rows.length ≤ maxRows := by
  have hmem : b.rows ∈ (call.batches codes s).map Batch.rows := mem_map_of_mem h
  rw [Call.batches_rows] at hmem
  exact slices_length_le hmem

theorem Call.batch_count_nonneg {b : Batch} (h : b ∈ call.batches codes s) {r : Row} (hr : r ∈ b.rows) : 0 < r.count := by
  have hmem : b.rows ∈ (call.batches codes s).map Batch.rows := mem_map_of_mem h
  rw [Call.batches_rows] at hmem
  have hall : r ∈ (slices (call.pending codes s)).flatten := mem_flatten.mpr ⟨_, hmem, hr⟩
  rw [slices_flatten, Call.pending, (call.order_perm _).mem_iff] at hall
  obtain ⟨e, he, rfl⟩ := mem_map.mp hall
  exact (call.scan_past codes s).positive e he

end Batches

/-! ### Evictions -/

/-- A number of batches leave, and the rest is within the limits or a single batch. -/
theorem evict_spec (queue : List Batch) (dropped : Int) :
    ∃ j, j ≤ queue.length ∧ evict (rowsOf queue) dropped queue = (queue.drop j, dropped + countOf (queue.take j)) ∧
      ((queue.drop j).length ≤ 1 ∨ (rowsOf (queue.drop j) ≤ maxPendingRows ∧ (queue.drop j).length ≤ maxBatches)) := by
  induction queue generalizing dropped with
  | nil => exact ⟨0, Nat.le_refl _, by simp [evict, countOf], .inl (by simp)⟩
  | cons b rest ih =>
    cases rest with
    | nil => exact ⟨0, by simp, by simp [evict, countOf], .inl (by simp)⟩
    | cons c rest =>
      rw [evict]
      split
      next =>
        obtain ⟨j, hj, heq, hfit⟩ := ih (dropped + b.count)
        have hrows : rowsOf (b :: c :: rest) - b.rows.length = rowsOf (c :: rest) := by
          simp only [rowsOf, map_cons, sum_cons]
          omega
        refine ⟨j + 1, by simpa using hj, ?_, hfit⟩
        rw [hrows, heq]
        simp [countOf, Int.add_assoc]
      next hfits =>
        refine ⟨0, Nat.zero_le _, by simp [countOf], .inr ?_⟩
        rw [drop_zero]
        omega

/-! ### A recorded page -/

/-- A batch of the page as it is queued. -/
def Batch.stamped (dropped : Int) (lastLossAt : Option Time) (b : Batch) : Batch :=
  { b with dropped := dropped, lastLossAt := lastLossAt }

/-- Only batches of the page itself are changed. -/
theorem stamp_drop (old new : List Batch) (j : Nat) (dropped : Int) (lastLossAt : Option Time) :
    stamp new.length dropped lastLossAt ((old ++ new).drop j) =
      old.drop j ++ (new.drop (j - old.length)).map (Batch.stamped dropped lastLossAt) := by
  rw [stamp, drop_append]
  have hlen : (old.drop j ++ new.drop (j - old.length)).length - new.length = (old.drop j).length := by
    simp only [length_append, length_drop]
    omega
  rw [hlen, take_left, drop_left]
  rfl

/-- What a recorded page does. `j` batches leave the queue. -/
structure Recorded (codes : String → Int × Int) (s : Snapshot) (call : Call) (next : Snapshot) (j : Nat) : Prop where
  same : next.activated = s.activated ∧ next.instanceId = s.instanceId ∧ next.startedAt = s.startedAt
  lastId : next.lastId = (call.scan codes s).lastId
  dropped : next.dropped = (call.scan codes s).dropped + countOf ((s.queue ++ call.batches codes s).take j)
  queue : next.queue = s.queue.drop j ++
    ((call.batches codes s).drop (j - s.queue.length)).map (Batch.stamped next.dropped next.lastLossAt)
  fits : next.queue.length ≤ 1 ∨ (rowsOf next.queue ≤ maxPendingRows ∧ next.queue.length ≤ maxBatches)
  lastLossAt : next.lastLossAt = if call.lost codes s then some call.now else s.lastLossAt
  lost : call.lost codes s = (call.gap s || decide ((call.scan codes s).dropped > s.dropped) ||
    decide (next.dropped > s.dropped))
  notice : (next.lossNotice = s.lossNotice ∧ (next.lastLossAt = none ∨ (s.lastLossAt = next.lastLossAt ∧ next.dropped = s.dropped))) ∨
    ∃ n, next.lossNotice = some n ∧ n.id = call.noticeId ∧ n.lastLossAt = next.lastLossAt ∧ n.dropped = next.dropped

theorem rowsOf_stamped (q : List Batch) (dropped : Int) (lastLossAt : Option Time) :
    rowsOf (q.map (Batch.stamped dropped lastLossAt)) = rowsOf q := by
  simp [rowsOf, Function.comp_def, Batch.stamped]

theorem countOf_stamped (q : List Batch) (dropped : Int) (lastLossAt : Option Time) :
    countOf (q.map (Batch.stamped dropped lastLossAt)) = countOf q := by
  rw [countOf, map_map]
  rfl

theorem record_spec (codes : String → Int × Int) (s : Snapshot) (call : Call) :
    ∃ j, Recorded codes s call (record codes s call) j := by
  obtain ⟨j, hj, heq, hfit⟩ := evict_spec (s.queue ++ call.batches codes s) (call.scan codes s).dropped
  have hkept : call.evicted codes s = _ := heq
  have hqueue := stamp_drop s.queue (call.batches codes s) j
  refine ⟨j, ?_⟩
  rw [drop_append] at hfit
  have hfit' : ∀ d l, (s.queue.drop j ++ ((call.batches codes s).drop (j - s.queue.length)).map (Batch.stamped d l)).length ≤ 1 ∨
      (rowsOf (s.queue.drop j ++ ((call.batches codes s).drop (j - s.queue.length)).map (Batch.stamped d l)) ≤ maxPendingRows ∧
        (s.queue.drop j ++ ((call.batches codes s).drop (j - s.queue.length)).map (Batch.stamped d l)).length ≤ maxBatches) := by
    intro d l
    have hrows : ∀ q q' : List Batch, rowsOf (q ++ q') = rowsOf q + rowsOf q' := by simp [rowsOf]
    rw [hrows] at hfit ⊢
    rw [rowsOf_stamped]
    simpa using hfit
  have hlost : call.lost codes s = (call.gap s || decide ((call.scan codes s).dropped > s.dropped) ||
      decide ((call.evicted codes s).2 > s.dropped)) := rfl
  rw [hkept] at hlost
  simp only [record, hkept, hqueue]
  generalize hl : (if call.lost codes s = true then some call.now else s.lastLossAt) = l
  by_cases hchange : l.isSome = true ∧ (s.lastLossAt ≠ l ∨
      (call.scan codes s).dropped + countOf ((s.queue ++ call.batches codes s).take j) ≠ s.dropped)
  · rw [if_pos hchange]
    exact ⟨⟨rfl, rfl, rfl⟩, rfl, rfl, rfl, hfit' _ _, hl.symm, hlost, .inr ⟨_, rfl, rfl, rfl, rfl⟩⟩
  · rw [if_neg hchange]
    refine ⟨⟨rfl, rfl, rfl⟩, rfl, rfl, rfl, hfit' _ _, hl.symm, hlost, .inl ⟨rfl, ?_⟩⟩
    cases l with
    | none => exact .inl rfl
    | some t =>
      right
      simpa using hchange

/-! ### What the state forgets -/

/-- `losses` are the times and the totals of the recorded losses, `used` the random ids of
what was saved. -/
structure Ledger where
  eligible : List Event
  removed : List Batch
  confirmed : List Sending
  losses : List (Time × Int)
  used : List String

def Ledger.empty : Ledger := ⟨[], [], [], [], []⟩

section Ledger
variable (codes : String → Int × Int)

/-- The page moves the watermark past the event, and it is one to count. -/
def isEligible (s next : Snapshot) (e : Event) : Bool :=
  decide (s.lastId < e.sourceLogId) && decide (e.sourceLogId ≤ next.lastId) && !decide (e.createdAt < s.startedAt) &&
    decide (e.code codes ≠ "")

def Call.newIds (s : Snapshot) (call : Call) : List String :=
  call.noticeId :: (call.batches codes s).map Batch.id

def Ledger.recorded (l : Ledger) (s : Snapshot) (call : Call) : Ledger :=
  let next := record codes s call
  { l with
    eligible := l.eligible ++ call.events.filter (isEligible codes s next)
    losses := if call.lost codes s then l.losses ++ [(call.now, next.dropped)] else l.losses
    used := l.used ++ call.newIds codes s }

/-- What a step adds; `w` is the world before it. -/
def Ledger.after (l : Ledger) (w : World) : Step → Ledger
  | .record call saved =>
    match w.stream with
    | some s => if s.activated && saved then l.recorded codes s call else l
    | none => l
  | .sent saved =>
    match w.stream, w.sending with
    | some s, some sent =>
      { l with
        confirmed := l.confirmed ++ [sent]
        removed := if saved && !sent.notice && (s.settle sent).isSome then l.removed ++ s.queue.take 1 else l.removed }
    | _, _ => l
  | .restart _ noticeId _ _ => { l with used := l.used ++ [noticeId] }
  | _ => l

/-- The ids of a page are distinct, and the random ids are new. -/
def Valid (w : World) (l : Ledger) : Step → Prop
  | .record call _ => (call.events.map Event.sourceLogId).Nodup ∧ ∀ s ∈ w.stream,
      (call.newIds codes s).Nodup ∧ ∀ id ∈ call.newIds codes s, id ∉ l.used
  | .restart _ noticeId _ _ => noticeId ∉ l.used
  | _ => True

/-- The world and its ledger after a run. -/
def runLedger (w : World) (l : Ledger) : List Step → World × Ledger
  | [] => (w, l)
  | step :: steps => runLedger (w.step codes step) (l.after codes w step) steps

def ValidRun (w : World) (l : Ledger) : List Step → Prop
  | [] => True
  | step :: steps => Valid codes w l step ∧
      ValidRun (w.step codes step) (l.after codes w step) steps

instance (w : World) (l : Ledger) : (step : Step) → Decidable (Valid codes w l step)
  | .record call _ => inferInstanceAs (Decidable ((call.events.map Event.sourceLogId).Nodup ∧ ∀ s ∈ w.stream,
      (call.newIds codes s).Nodup ∧ ∀ id ∈ call.newIds codes s, id ∉ l.used))
  | .restart _ noticeId _ _ => inferInstanceAs (Decidable (noticeId ∉ l.used))
  | .take => .isTrue True.intro
  | .sent _ => .isTrue True.intro
  | .sendFailed => .isTrue True.intro

instance decidableValidRun (w : World) (l : Ledger) : (steps : List Step) → Decidable (ValidRun codes w l steps)
  | [] => .isTrue True.intro
  | step :: steps =>
    have := decidableValidRun (w.step codes step) (l.after codes w step) steps
    inferInstanceAs (Decidable (Valid codes w l step ∧
      ValidRun codes (w.step codes step) (l.after codes w step) steps))

end Ledger

theorem runLedger_world (codes : String → Int × Int) (w : World) (l : Ledger) (steps : List Step) :
    (runLedger codes w l steps).1 = w.run codes steps := by
  induction steps generalizing w l with
  | nil => rfl
  | cons step steps ih => exact ih _ _

/-! ### The invariant -/

structure Kept (instanceId : String) (d : Snapshot) (l : Ledger) : Prop where
  identity : d.instanceId = instanceId ∧ d.startedAt.isZero = false
  counted : (l.eligible.length : Int) = countOf d.queue + countOf l.removed + d.dropped
  once : (l.eligible.map Event.sourceLogId).Nodup ∧ ∀ e ∈ l.eligible, e.sourceLogId ≤ d.lastId
  bounded : d.queue.length ≤ maxBatches ∧ rowsOf d.queue ≤ maxPendingRows
  batches : ∀ b ∈ d.queue, b.rows.length ≤ maxRows ∧ ∀ r ∈ b.rows, 0 < r.count
  ids : (d.queue.map Batch.id).Nodup ∧ ∀ b ∈ d.queue, b.id ∈ l.used
  noticeId : ∀ n, d.lossNotice = some n → n.id ∈ l.used
  losses : d.lastLossAt = l.losses.getLast?.map Prod.fst ∧ d.dropped = l.losses.getLast?.elim 0 Prod.snd
  notice : ∀ n, d.lossNotice = some n → n.lastLossAt = d.lastLossAt ∧ n.dropped = d.dropped
  told : d.lossNotice = none → ∀ t, d.lastLossAt = some t →
    ∃ n, ⟨n, true⟩ ∈ l.confirmed ∧ n.lastLossAt = some t ∧ n.dropped = d.dropped
  delivered : ∀ b ∈ l.removed, ⟨b, false⟩ ∈ l.confirmed

/-- What is on its way is known by its id. -/
structure Underway (d : Snapshot) (l : Ledger) (x : Sending) : Prop where
  used : x.batch.id ∈ l.used
  notice : x.notice = true → ∀ n, d.lossNotice = some n → n.id = x.batch.id → n = x.batch
  data : x.notice = false → ∀ b ∈ d.queue, b.id = x.batch.id → b = x.batch

theorem countOf_nonneg {queue : List Batch} (h : ∀ b ∈ queue, ∀ r ∈ b.rows, 0 < r.count) : 0 ≤ countOf queue := by
  apply sum_nonneg
  intro n hn
  obtain ⟨b, hb, rfl⟩ := mem_map.mp hn
  apply sum_nonneg
  intro m hm
  obtain ⟨r, hr, rfl⟩ := mem_map.mp hm
  exact Int.le_of_lt (h b hb r hr)

section Steps
variable {codes : String → Int × Int} {instanceId : String} {d : Snapshot} {l : Ledger} {call : Call}

/-- The eligible events of a page are those it counts or drops. -/
theorem filter_eligible (hlast : (record codes d call).lastId = (call.scan codes d).lastId) :
    call.events.filter (isEligible codes d (record codes d call)) =
      call.events.filter (Event.counts codes d.lastId d.startedAt) := by
  apply filter_congr
  intro e he
  have hreached := (call.scan_past codes d).reached e he
  rw [← hlast] at hreached
  simp [isEligible, Event.counts, hreached]

variable {next : Snapshot} {j : Nat}

/-- Where a batch of the queue comes from. -/
theorem Recorded.mem_queue (h : Recorded codes d call next j) {b : Batch} (hb : b ∈ next.queue) :
    b ∈ d.queue ∨ ∃ b₀ ∈ call.batches codes d, b.id = b₀.id ∧ b.rows = b₀.rows := by
  rw [h.queue] at hb
  rcases mem_append.mp hb with hb | hb
  · exact .inl (mem_of_mem_drop hb)
  · obtain ⟨b₀, hb₀, rfl⟩ := mem_map.mp hb
    exact .inr ⟨b₀, mem_of_mem_drop hb₀, rfl, rfl⟩

theorem Recorded.count (h : Recorded codes d call next j) :
    countOf next.queue + next.dropped = countOf d.queue + (call.scan codes d).total := by
  have hsplit := countOf_split (d.queue ++ call.batches codes d) j
  rw [h.queue, h.dropped, countOf_append, countOf_stamped, Scan.total, ← Call.batches_count]
  rw [drop_append, countOf_append, countOf_append] at hsplit
  omega

variable (h : Kept instanceId d l)
include h

theorem Kept.dropped_le (hr : Recorded codes d call next j) :
    d.dropped ≤ next.dropped := by
  have hscan := (call.scan_past codes d).dropped
  have hcount : 0 ≤ countOf ((d.queue ++ call.batches codes d).take j) := by
    apply countOf_nonneg
    intro b hb r hrow
    rcases mem_append.mp (mem_of_mem_take hb) with hb | hb
    · exact (h.batches b hb).2 r hrow
    · exact call.batch_count_nonneg codes d hb hrow
  rw [hr.dropped]
  omega

/-- Without a loss nothing is dropped. -/
theorem Kept.unlost (hr : Recorded codes d call next j)
    (hlost : call.lost codes d = false) : next.lastLossAt = d.lastLossAt ∧ next.dropped = d.dropped := by
  have hle := h.dropped_le hr
  have hdropped := hr.lost
  rw [hlost] at hdropped
  have : ¬ next.dropped > d.dropped := by
    intro hgt
    simp [hgt] at hdropped
  refine ⟨by rw [hr.lastLossAt, hlost]; rfl, by omega⟩

theorem Kept.record (hpage : (call.events.map Event.sourceLogId).Nodup)
    (hnew : (call.newIds codes d).Nodup) (hfresh : ∀ id ∈ call.newIds codes d, id ∉ l.used) :
    Kept instanceId (record codes d call) (l.recorded codes d call) := by
  obtain ⟨j, hr⟩ := record_spec codes d call
  have hfilter := filter_eligible hr.lastId
  have hpast := call.scan_past codes d
  have hunlost := fun hl => h.unlost hr hl
  have hbatch : ∀ b ∈ (ErrorStats.record codes d call).queue, b.rows.length ≤ maxRows ∧ ∀ r ∈ b.rows, 0 < r.count := by
    intro b hb
    rcases hr.mem_queue hb with hb | ⟨b₀, hb₀, -, hrows⟩
    · exact h.batches b hb
    · rw [hrows]
      exact ⟨call.batch_rows_le codes d hb₀, fun r => call.batch_count_nonneg codes d hb₀⟩
  simp only [Ledger.recorded, hfilter]
  generalize ErrorStats.record codes d call = next at *
  constructor
  case identity => rw [hr.same.2.1, hr.same.2.2]; exact h.identity
  case counted =>
    have hcount := hr.count
    have hcounted := h.counted
    rw [call.scan_total codes d] at hcount
    simp only [length_append, Nat.cast_add]
    omega
  case once =>
    refine ⟨?_, fun e he => ?_⟩
    · rw [map_append, nodup_append]
      refine ⟨h.once.1, hpage.sublist (filter_sublist.map _), fun a ha b hb hab => ?_⟩
      obtain ⟨e, he, rfl⟩ := mem_map.mp ha
      obtain ⟨e', he', rfl⟩ := mem_map.mp hb
      have hle := h.once.2 e he
      have hlt : d.lastId < e'.sourceLogId := by
        have := (mem_filter.mp he').2
        simp only [Event.counts, Bool.and_eq_true, decide_eq_true_eq] at this
        exact this.1.1
      omega
    · rw [hr.lastId]
      rcases mem_append.mp he with he | he
      · exact (h.once.2 e he).trans hpast.water
      · exact hpast.reached e (mem_of_mem_filter he)
  case bounded =>
    rcases hr.fits with hone | hfits
    · refine ⟨by simp only [maxBatches]; omega, ?_⟩
      cases hq : next.queue with
      | nil => simp [rowsOf]
      | cons b rest =>
        have hrest : rest = [] := by
          rw [hq, length_cons] at hone
          exact length_eq_zero_iff.mp (by omega)
        have := (hbatch b (by simp [hq])).1
        subst hrest
        simp only [rowsOf, map_cons, map_nil, sum_cons, sum_nil, maxRows, maxPendingRows] at *
        omega
    · exact ⟨hfits.2, hfits.1⟩
  case batches => exact hbatch
  case ids =>
    have hbatches := (nodup_cons.mp hnew).2
    constructor
    · rw [hr.queue, map_append, map_map, nodup_append]
      refine ⟨h.ids.1.sublist ((drop_sublist _ _).map _), hbatches.sublist ((drop_sublist _ _).map _), fun a ha b hb hab => ?_⟩
      obtain ⟨x, hx, rfl⟩ := mem_map.mp ha
      obtain ⟨y, hy, rfl⟩ := mem_map.mp hb
      have hused := h.ids.2 x (mem_of_mem_drop hx)
      have hy' : y.id ∈ call.newIds codes d :=
        mem_cons_of_mem _ (mem_map_of_mem (mem_of_mem_drop hy))
      have hsame : x.id = y.id := hab
      exact hfresh y.id hy' (hsame ▸ hused)
    · intro b hb
      rw [mem_append]
      rcases hr.mem_queue hb with hb | ⟨b₀, hb₀, hid, -⟩
      · exact .inl (h.ids.2 b hb)
      · rw [hid]
        exact .inr (mem_cons_of_mem _ (mem_map_of_mem hb₀))
  case noticeId =>
    intro n hn
    rw [mem_append]
    rcases hr.notice with ⟨hsame, -⟩ | ⟨n', hn', hid, -⟩
    · exact .inl (h.noticeId n (hsame ▸ hn))
    · rw [hn', Option.some_inj] at hn
      rw [← hn, hid]
      exact .inr mem_cons_self
  case losses =>
    cases hlost : call.lost codes d with
    | true =>
      have hat := hr.lastLossAt
      rw [hlost, if_pos rfl] at hat
      simp [hat]
    | false =>
      obtain ⟨hl, hd⟩ := hunlost hlost
      rw [hl, hd, if_neg Bool.false_ne_true]
      exact h.losses
  case notice =>
    intro n hn
    rcases hr.notice with ⟨hsame, hstill⟩ | ⟨n', hn', -, hl, hd⟩
    · have hold := h.notice n (hsame ▸ hn)
      rcases hstill with hnone | ⟨hl, hd⟩
      · have hlost : call.lost codes d = false := by
          cases hlost : call.lost codes d with
          | false => rfl
          | true => simp [hr.lastLossAt, hlost] at hnone
        obtain ⟨hl, hd⟩ := hunlost hlost
        rw [hl, hd]
        exact hold
      · rw [← hl, hd]
        exact hold
    · rw [hn', Option.some_inj] at hn
      rw [← hn]
      exact ⟨hl, hd⟩
  case told =>
    intro hnone t ht
    rcases hr.notice with ⟨hsame, hstill⟩ | ⟨n', hn', -⟩
    · rcases hstill with hno | ⟨hl, hd⟩
      · rw [ht] at hno
        cases hno
      · rw [hd]
        exact h.told (hsame ▸ hnone) t (hl.trans ht)
    · rw [hn'] at hnone
      cases hnone
  case delivered => exact h.delivered

omit h in
theorem Underway.record {x : Sending} (h : Underway d l x) (hfresh : ∀ id ∈ call.newIds codes d, id ∉ l.used) :
    Underway (record codes d call) (l.recorded codes d call) x := by
  obtain ⟨j, hr⟩ := record_spec codes d call
  refine ⟨mem_append_left _ h.used, fun hx n hn hid => ?_, fun hx b hb hid => ?_⟩
  · rcases hr.notice with ⟨hsame, -⟩ | ⟨n', hn', hnew, -⟩
    · exact h.notice hx n (hsame ▸ hn) hid
    · rw [hn', Option.some_inj] at hn
      rw [← hn, hnew] at hid
      exact absurd h.used (hid ▸ hfresh _ mem_cons_self)
  · rcases hr.mem_queue hb with hb | ⟨b₀, hb₀, hnew, -⟩
    · exact h.data hx b hb hid
    · rw [hnew] at hid
      exact absurd h.used (hid ▸ hfresh _ (mem_cons_of_mem _ (mem_map_of_mem hb₀)))

/-- What `Flush` takes is still in its place. -/
theorem Kept.takes {x : Sending} (hx : d.takes = some x) : Underway d l x := by
  rw [Snapshot.takes] at hx
  cases hn : d.lossNotice with
  | some n =>
    rw [hn, Option.some_inj] at hx
    subst hx
    refine ⟨h.noticeId n hn, fun _ n' hn' _ => ?_, nofun⟩
    exact Option.some.inj (hn'.symm.trans hn)
  | none =>
    rw [hn] at hx
    obtain ⟨b, hb, rfl⟩ := Option.map_eq_some_iff.mp hx
    obtain ⟨rest, hq⟩ := List.head?_eq_some_iff.mp hb
    have hmem : b ∈ d.queue := by simp [hq]
    refine ⟨h.ids.2 b hmem, nofun, fun _ b' hb' hid => ?_⟩
    exact inj_on_of_nodup_map h.ids.1 hb' hmem hid

/-- The ledger may learn of more that was sent. -/
theorem Kept.confirm (x : Sending) : Kept instanceId d { l with confirmed := l.confirmed ++ [x] } where
  identity := h.identity
  counted := h.counted
  once := h.once
  bounded := h.bounded
  batches := h.batches
  ids := h.ids
  noticeId := h.noticeId
  losses := h.losses
  notice := h.notice
  told hn t ht := by
    obtain ⟨n, hmem, hn⟩ := h.told hn t ht
    exact ⟨n, mem_append_left _ hmem, hn⟩
  delivered b hb := mem_append_left _ (h.delivered b hb)

/-- The notice was sent and is still the one that waits. -/
theorem Kept.settleNotice {n : Batch} (hn : d.lossNotice = some n) :
    Kept instanceId { d with lossNotice := none } { l with confirmed := l.confirmed ++ [⟨n, true⟩] } where
  identity := h.identity
  counted := h.counted
  once := h.once
  bounded := h.bounded
  batches := h.batches
  ids := h.ids
  noticeId := nofun
  losses := h.losses
  notice := nofun
  told _ t ht := by
    obtain ⟨hl, hd⟩ := h.notice n hn
    exact ⟨n, by simp, hl.trans ht, hd⟩
  delivered b hb := mem_append_left _ (h.delivered b hb)

/-- The first batch was sent and is still the first. -/
theorem Kept.settleBatch {b : Batch} {rest : List Batch} (hq : d.queue = b :: rest) :
    Kept instanceId { d with queue := rest } { l with confirmed := l.confirmed ++ [⟨b, false⟩], removed := l.removed ++ [b] } where
  identity := h.identity
  counted := by
    have := h.counted
    rw [hq] at this
    simp only [countOf, map_cons, sum_cons, map_append, sum_append, map_nil, sum_nil] at this ⊢
    omega
  once := h.once
  bounded := by
    have := h.bounded
    rw [hq] at this
    simp only [rowsOf, map_cons, sum_cons, length_cons] at this ⊢
    omega
  batches b' hb' := h.batches b' (by simp [hq, hb'])
  ids := by
    have := h.ids
    rw [hq, map_cons] at this
    exact ⟨(nodup_cons.mp this.1).2, fun b' hb' => this.2 b' (mem_cons_of_mem _ hb')⟩
  noticeId := h.noticeId
  losses := h.losses
  notice := h.notice
  told hn t ht := by
    obtain ⟨n, hmem, hn⟩ := h.told hn t ht
    exact ⟨n, mem_append_left _ hmem, hn⟩
  delivered b' hb' := by
    rw [mem_append]
    rcases mem_append.mp hb' with hb' | hb'
    · exact .inl (h.delivered b' hb')
    · rw [mem_singleton.mp hb']
      exact .inr mem_cons_self

omit h in
/-- `Flush` removes what it has sent, and nothing else. -/
theorem Underway.settle {x : Sending} (hx : Underway d l x) {d' : Snapshot} (hs : d.settle x = some d') :
    (x.notice = true ∧ d.lossNotice = some x.batch ∧ d' = { d with lossNotice := none }) ∨
      (x.notice = false ∧ ∃ rest, d.queue = x.batch :: rest ∧ d' = { d with queue := rest }) := by
  rw [Snapshot.settle] at hs
  cases hnotice : x.notice with
  | true =>
    left
    rw [hnotice, if_pos rfl] at hs
    cases hn : d.lossNotice with
    | none => simp [hn] at hs
    | some n =>
      simp only [hn] at hs
      split at hs
      next hid =>
        have : n = x.batch := hx.notice hnotice n hn hid
        subst this
        exact ⟨rfl, rfl, (Option.some.inj hs).symm⟩
      next => cases hs
  | false =>
    right
    rw [hnotice, if_neg Bool.false_ne_true] at hs
    cases hq : d.queue with
    | nil => simp [hq] at hs
    | cons b rest =>
      simp only [hq] at hs
      split at hs
      next hid =>
        have : b = x.batch := hx.data hnotice b (by simp [hq]) hid
        subst this
        exact ⟨rfl, rest, rfl, (Option.some.inj hs).symm⟩
      next => cases hs

theorem Kept.accepted : accepts instanceId d = true := by
  simp [accepts, h.identity.1, h.identity.2, h.bounded.1]

/-- A new id is on record. -/
theorem Kept.use (id : String) : Kept instanceId d { l with used := l.used ++ [id] } :=
  { h with
    ids := ⟨h.ids.1, fun b hb => mem_append_left _ (h.ids.2 b hb)⟩
    noticeId := fun n hn => mem_append_left _ (h.noticeId n hn) }

/-- A loss is always dated. -/
theorem Kept.dated (hd : d.dropped > 0) : d.lastLossAt ≠ none := by
  obtain ⟨hl, htotal⟩ := h.losses
  cases hlast : l.losses.getLast? with
  | none => simp [htotal, hlast] at hd
  | some loss => simp [hl, hlast]

/-- Opening the file again. -/
theorem Kept.reopen (now : Time) (noticeId : String) :
    Kept instanceId (reopened d now noticeId) { l with used := l.used ++ [noticeId] } ∧
      (republishes d = false → reopened d now noticeId = d) := by
  have hdated : ¬ (d.dropped > 0 ∧ d.lastLossAt = none) := fun ⟨hd, hn⟩ => h.dated hd hn
  simp only [reopened, if_neg hdated]
  split
  next hnew =>
    have huse := h.use noticeId
    refine ⟨{ huse with
      noticeId := fun n hn => ?_
      notice := fun n hn => ?_
      told := nofun }, fun hno => ?_⟩
    · cases hn
      simp
    · cases hn
      exact ⟨rfl, rfl⟩
    · simp [republishes, hnew.1, hnew.2] at hno
  next => exact ⟨h.use noticeId, fun _ => rfl⟩

end Steps

/-! ### Runs -/

structure Good (w : World) (l : Ledger) : Prop where
  kept : Kept w.instanceId w.disk l
  current : ∀ s, w.stream = some s → s = w.disk
  underway : ∀ x, w.sending = some x → Underway w.disk l x

section Runs
variable {codes : String → Int × Int} {w : World} {l : Ledger}

/-- Nothing is on its way. -/
theorem Good.idle (hkept : Kept w.instanceId w.disk l) (hcurrent : ∀ s, w.stream = some s → s = w.disk) (hnone : w.sending = none) :
    Good w l := ⟨hkept, hcurrent, fun x hx => by simp [hnone] at hx⟩

theorem Good.sent (h : Good w l) (saved : Bool) : Good (w.step codes (.sent saved)) (l.after codes w (.sent saved)) := by
  simp only [World.step, Ledger.after]
  cases hs : w.stream with
  | none => exact h
  | some s =>
    cases hx : w.sending with
    | none => exact h
    | some x =>
      obtain rfl := h.current s hs
      have hux := h.underway x hx
      cases hsettle : w.disk.settle x with
      | none =>
        simp only [hsettle, Option.isSome_none, Bool.and_false, Bool.false_eq_true, if_false]
        exact .idle (h.kept.confirm x) (fun s hs => (Option.some.inj hs).symm) rfl
      | some d' =>
        simp only [hsettle, Option.isSome_some, Bool.and_true]
        cases saved with
        | false => exact .idle (h.kept.confirm x) (fun s hs => (Option.some.inj hs).symm) rfl
        | true =>
          refine .idle ?_ (fun s hs => (Option.some.inj hs).symm) rfl
          rcases hux.settle hsettle with ⟨hnotice, hn, rfl⟩ | ⟨hnotice, rest, hq, rfl⟩
          · have hkept := h.kept.settleNotice hn
            obtain ⟨b, notice⟩ := x
            subst hnotice
            exact hkept
          · have hkept := h.kept.settleBatch hq
            obtain ⟨b, notice⟩ := x
            subst hnotice
            simpa [hq, World.commit] using hkept

theorem Good.restart (h : Good w l) (now : Time) (noticeId : String) (readable saved : Bool) :
    Good (w.step codes (.restart now noticeId readable saved))
      (l.after codes w (.restart now noticeId readable saved)) := by
  obtain ⟨hreopened, hsame⟩ := h.kept.reopen now noticeId
  have hclosed : Good { w with stream := none, sending := none } { l with used := l.used ++ [noticeId] } :=
    .idle (h.kept.use noticeId) (by simp) rfl
  simp only [World.step, Ledger.after, h.kept.accepted, Bool.not_true, Bool.or_false]
  cases readable with
  | false => exact hclosed
  | true =>
    cases hrep : republishes w.disk with
    | true =>
      cases saved with
      | false => exact hclosed
      | true => exact .idle hreopened (fun s hs => (Option.some.inj hs).symm) rfl
    | false =>
      refine .idle (h.kept.use noticeId) (fun s hs => ?_) rfl
      rw [← Option.some.inj hs]
      exact hsame hrep

theorem Good.step {step : Step} (h : Good w l) (hvalid : Valid codes w l step) :
    Good (w.step codes step) (l.after codes w step) := by
  cases step with
  | record call saved =>
    simp only [World.step, Ledger.after]
    cases hs : w.stream with
    | none => exact h
    | some s =>
      obtain rfl := h.current s hs
      obtain ⟨hnew, hfresh⟩ := hvalid.2 w.disk hs
      dsimp only
      split
      next =>
        exact ⟨h.kept.record hvalid.1 hnew hfresh, fun s hs => (Option.some.inj hs).symm,
          fun x hx => (h.underway x hx).record hfresh⟩
      next => exact h
  | take =>
    simp only [World.step, Ledger.after]
    cases hs : w.stream with
    | none => exact h
    | some s =>
      cases hx : w.sending with
      | some x => exact h
      | none =>
        obtain rfl := h.current s hs
        exact ⟨h.kept, fun s hs => (Option.some.inj hs).symm, fun x hx => h.kept.takes hx⟩
  | sent saved => exact h.sent saved
  | sendFailed => exact .idle h.kept h.current rfl
  | restart now noticeId readable saved => exact h.restart now noticeId readable saved

theorem Good.run {steps : List Step} (h : Good w l) (hvalid : ValidRun codes w l steps) :
    Good (runLedger codes w l steps).1 (runLedger codes w l steps).2 := by
  induction steps generalizing w l with
  | nil => exact h
  | cons step steps ih => exact ih (h.step hvalid.1) hvalid.2

theorem Good.activated (instanceId : String) (opened : Time) (now : Now) (latestId : Int) :
    Good (.activated instanceId opened now.instant latestId) .empty := by
  refine .idle ?_ (fun s hs => (Option.some.inj hs).symm) rfl
  constructor
  case identity => exact ⟨rfl, now.nonzero⟩
  all_goals simp [World.activated, activate, created, Ledger.empty, countOf, rowsOf]

end Runs

/-- What the statistics owe, in a world with its ledger. -/
structure Conserved (w : World) (l : Ledger) : Prop where
  /-- Every eligible event waits, was sent, or is in `dropped`. -/
  counted : (l.eligible.length : Int) = countOf w.disk.queue + countOf l.removed + w.disk.dropped
  /-- No event is eligible twice. -/
  once : (l.eligible.map Event.sourceLogId).Nodup
  /-- What `Flush` removed, it had sent. -/
  delivered : ∀ b ∈ l.removed, ⟨b, false⟩ ∈ l.confirmed
  bounded : w.disk.queue.length ≤ maxBatches ∧ rowsOf w.disk.queue ≤ maxPendingRows
  accepted : accepts w.instanceId w.disk = true
  /-- The stream works on what was saved. -/
  current : ∀ s, w.stream = some s → s = w.disk
  /-- When a data batch is the next to be sent, a notice recorded with or after each loss was sent. -/
  told : ∀ s b, w.stream = some s → s.takes = some ⟨b, false⟩ →
    ∀ earlier loss later, l.losses = earlier ++ loss :: later →
      ∃ n, ⟨n, true⟩ ∈ l.confirmed ∧ ∃ told ∈ loss :: later, n.lastLossAt = some told.1 ∧ n.dropped = told.2

theorem Good.told {w : World} {l : Ledger} (h : Good w l) {s : Snapshot} {b : Batch} (hs : w.stream = some s)
    (htakes : s.takes = some ⟨b, false⟩) {earlier later : List (Time × Int)} {loss : Time × Int}
    (hlosses : l.losses = earlier ++ loss :: later) :
    ∃ n, ⟨n, true⟩ ∈ l.confirmed ∧ ∃ told ∈ loss :: later, n.lastLossAt = some told.1 ∧ n.dropped = told.2 := by
  obtain rfl := h.current s hs
  have hnone : w.disk.lossNotice = none := by
    cases hn : w.disk.lossNotice with
    | none => rfl
    | some n => simp [Snapshot.takes, hn] at htakes
  obtain ⟨last, hlast⟩ : ∃ last, (loss :: later).getLast? = some last := ⟨_, List.getLast?_eq_some_getLast (by simp)⟩
  have hmem : last ∈ loss :: later := mem_of_getLast? hlast
  obtain ⟨hl, hd⟩ := h.kept.losses
  rw [hlosses, List.getLast?_append, hlast] at hl hd
  obtain ⟨n, hn, hat, hdropped⟩ := h.kept.told hnone last.1 hl
  exact ⟨n, hn, last, hmem, hat, hdropped.trans hd⟩

/-- **Conservation**, over every run after the activation. -/
theorem statistics_conserved (codes : String → Int × Int) (instanceId : String) (opened : Time) (now : Now) (latestId : Int)
    (steps : List Step)
    (hvalid : ValidRun codes (.activated instanceId opened now.instant latestId) .empty steps) :
    (runLedger codes (.activated instanceId opened now.instant latestId) .empty steps).1 =
        (World.activated instanceId opened now.instant latestId).run codes steps ∧
      Conserved (runLedger codes (.activated instanceId opened now.instant latestId) .empty steps).1
        (runLedger codes (.activated instanceId opened now.instant latestId) .empty steps).2 := by
  refine ⟨runLedger_world .., ?_⟩
  have h := (Good.activated instanceId opened now latestId).run hvalid
  generalize runLedger codes (.activated instanceId opened now.instant latestId) .empty steps = r at h
  exact ⟨h.kept.counted, h.kept.once.1, h.kept.delivered, h.kept.bounded, h.kept.accepted, h.current,
    fun s b hs htakes earlier loss later hlosses => h.told hs htakes hlosses⟩

/-- A failed request of a model with a name. -/
def failedRequest (id : Int) : Event := ⟨id, 100, .error, 7, 3, "m", 0, "", false, ""⟩

def pageOf (events : List Event) (sourceAfterId : Option Int) (name : String) : Call :=
  ⟨events, 200, none, sourceAfterId, fun i => name ++ toString i, name, id, List.Perm.refl⟩

/-- Two pages, the second with a gap while the notice of the first gap is on its way, and
a replay; both notices are sent before the batches, one of which meets a failing save. -/
def twoGaps : List Step :=
  [.record (pageOf [failedRequest 13, failedRequest 14] (some 12) "a") true, .take,
    .record (pageOf [failedRequest 14, failedRequest 20] (some 19) "b") true, .sent true, .take, .sent true, .take,
    .sent false, .restart 300 "c" true true, .take, .sent true, .take, .sent true]

theorem statistics_conserved_twoGaps :
    ValidRun (fun _ => (0, 0)) (.activated "agent" 40 50 10) .empty twoGaps ∧
      (runLedger (fun _ => (0, 0)) (.activated "agent" 40 50 10) .empty twoGaps).2.eligible.map Event.sourceLogId = [13, 14, 20] ∧
      Conserved (runLedger (fun _ => (0, 0)) (.activated "agent" 40 50 10) .empty twoGaps).1
        (runLedger (fun _ => (0, 0)) (.activated "agent" 40 50 10) .empty twoGaps).2 :=
  have hvalid : ValidRun (fun _ => (0, 0)) (.activated "agent" 40 50 10) .empty twoGaps := by decide +kernel
  ⟨hvalid, by decide +kernel,
    (statistics_conserved (fun _ => (0, 0)) "agent" 40 ⟨50, by decide, by decide⟩ 10 twoGaps hvalid).2⟩

end ControlTower.ErrorStats
